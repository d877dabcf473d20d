import MclWire.FirstFailure
import MclWire.Extension.Capacity

/-!
# Why a list of extensions is refused

`mcl_wire_extensions_encode` and `mcl_wire_extensions_encoded_size` go through the list once and stop
at the first extension that is not in range, not in order, or too much. Both stop at the same place
for the same reason (`Offends`), and only say differently that there is no room.

* `extensionsEncode_error_iff`, `extensionsEncodedSize_error_iff` — their statuses, by the first
  extension that offends.
* `encode_offences` — the two functions and the encoder that calls them.
-/

namespace MclWire

open FirstFailure (First Lawful first_cons_iff not_first_nil not_first_behind)

/-- `Offends limit full pre x e`: behind the extensions `pre` the extension `x` is refused: its
members are not in range, its id is not above the one before, or there is no room for it, which the
two functions call `full`. -/
inductive Offends (limit : Nat) (full : Err) (pre : List (Extension CallerValue))
    (x : Extension CallerValue) : Err → Prop
  | range : ¬ x.Encodable → Offends limit full pre x .range
  | order {y : Extension CallerValue} : x.Encodable → pre.getLast? = some y → x.id ≤ y.id →
      Offends limit full pre x .noncanonical
  | full : Encodable (pre ++ [x]) → limit < blockSize (pre ++ [x]) → Offends limit full pre x full

/-- A list both functions go through to the end. -/
def Fitting (limit : Nat) (xs : List (Extension CallerValue)) : Prop :=
  Encodable xs ∧ blockSize xs ≤ limit

/-- The first extension of a list that offends, and how. -/
abbrev FirstOffence (limit : Nat) (full : Err) (xs : List (Extension CallerValue)) (e : Err) : Prop :=
  First (Fitting limit) (Offends limit full) [] xs e

section Lists

variable {pre xs : List (Extension CallerValue)} {x : Extension CallerValue}

theorem blockSize_append : blockSize (pre ++ xs) = blockSize pre + blockSize xs := by
  rw [blockSize, blockSize, blockSize, List.map_append, List.sum_append]

theorem blockSize_concat : blockSize (pre ++ [x]) = blockSize pre + x.tlvSize := by
  rw [blockSize_append]
  rfl

theorem Encodable.initial (h : Encodable (pre ++ xs)) : Encodable pre :=
  ⟨fun y hy => h.1 y (List.mem_append_left _ hy), (List.pairwise_append.mp h.2).1⟩

/-- One more extension: it is in range, and its id is above the last one. -/
theorem encodable_concat_iff : Encodable (pre ++ [x]) ↔
    Encodable pre ∧ x.Encodable ∧ ∀ y, pre.getLast? = some y → y.id < x.id := by
  constructor
  · intro h
    refine ⟨h.initial, h.1 x (List.mem_append_right _ List.mem_cons_self), ?_⟩
    intro y hy
    exact (List.pairwise_append.mp h.2).2.2 y (List.mem_of_getLast? hy) x List.mem_cons_self
  · rintro ⟨⟨hall, hids⟩, hx, hlast⟩
    refine ⟨?_, List.pairwise_append.mpr ⟨hids, List.pairwise_singleton _ _, ?_⟩⟩
    · intro y hy
      rcases List.mem_append.mp hy with hy | hy
      · exact hall y hy
      · rw [List.mem_singleton.mp hy]
        exact hx
    · intro y hy z hz
      rw [List.mem_singleton.mp hz]
      -- the ids up to the last one increase
      rcases List.eq_nil_or_concat' pre with rfl | ⟨pre', w, rfl⟩
      · cases hy
      · have hw : w.id < x.id := hlast w List.getLast?_concat
        rcases List.mem_append.mp hy with hy | hy
        · have hyw := (List.pairwise_append.mp hids).2.2 y hy w List.mem_cons_self
          exact UInt32.lt_trans hyw hw
        · rw [List.mem_singleton.mp hy]
          exact hw

theorem offends_lawful (limit : Nat) (full : Err) : Lawful (Fitting limit) (Offends limit full) where
  initial h := by
    refine ⟨h.1.initial, ?_⟩
    have hle := h.2
    rw [blockSize_append] at hle
    exact Nat.le_of_add_right_le hle
  excluded hbad hgood := by
    obtain ⟨-, hx, hlast⟩ := encodable_concat_iff.mp hgood.1
    cases hbad with
    | range hno => exact hno hx
    | order _ hy hle => exact UInt32.not_lt.mpr hle (hlast _ hy)
    | full _ hlt => exact Nat.not_lt.mpr hgood.2 hlt
  unique h h' := by
    cases h with
    | range hno =>
        cases h' with
        | range _ => rfl
        | order hx _ _ => exact absurd hx hno
        | full hall _ => exact absurd (encodable_concat_iff.mp hall).2.1 hno
    | order hx hy hle =>
        cases h' with
        | range hno => exact absurd hx hno
        | order _ _ _ => rfl
        | full hall _ =>
            exact absurd ((encodable_concat_iff.mp hall).2.2 _ hy) (UInt32.not_lt.mpr hle)
    | full hall _ =>
        cases h' with
        | range hno => exact absurd (encodable_concat_iff.mp hall).2.1 hno
        | order _ hy hle =>
            exact absurd ((encodable_concat_iff.mp hall).2.2 _ hy) (UInt32.not_lt.mpr hle)
        | full _ _ => rfl

end Lists

/-! ## One extension

A turn of a loop depends on the extensions before only through the last id. The checks of the encoder
and of the size function are the same but for the one on the room, and so are the cases. -/

/-- The loops have taken the extensions `pre`: the id they carry on is that of the last one. -/
def Taken (pre : List (Extension CallerValue)) (i : Nat) (previousId : UInt32) : Prop :=
  previousOf i previousId = pre.getLast?.map Extension.id

theorem taken_nil : Taken [] 0 0 := rfl

theorem Taken.next {pre : List (Extension CallerValue)} (i : Nat) (x : Extension CallerValue) :
    Taken (pre ++ [x]) (i + 1) x.id := by
  rw [Taken, List.getLast?_concat]
  rfl

section Steps

variable {pre : List (Extension CallerValue)} {x : Extension CallerValue} {i : Nat}
  {previousId : UInt32}

/-- What the two checks say about the next extension. -/
theorem next_cases_of_taken (hpre : Encodable pre) (htaken : Taken pre i previousId) :
    ¬ x.Encodable ∨
    (∃ t y, x.Is t ∧ ¬ tlvCode.Follows (previousOf i previousId) t ∧ x.Encodable ∧
      pre.getLast? = some y ∧ x.id ≤ y.id) ∨
    ∃ t, x.Is t ∧ tlvCode.Follows (previousOf i previousId) t ∧ Encodable (pre ++ [x]) ∧
      blockSize (pre ++ [x]) = blockSize pre + t.bytes.length := by
  by_cases hx : x.Encodable
  · obtain ⟨t, ht⟩ := Extension.encodable_iff.mp hx
    have hid : x.id = t.val.id := congrArg Extension.id ht.1
    have hsize : blockSize (pre ++ [x]) = blockSize pre + t.bytes.length := by
      rw [blockSize_concat, ht.tlvSize_eq]
    right
    by_cases hfollows : tlvCode.Follows (previousOf i previousId) t
    · right
      refine ⟨t, ht, hfollows, encodable_concat_iff.mpr ⟨hpre, hx, ?_⟩, hsize⟩
      intro y hy
      rw [hid]
      apply hfollows
      rw [htaken, hy]
      rfl
    · left
      rw [htaken] at hfollows
      cases hlast : pre.getLast? with
      | none =>
          rw [hlast] at hfollows
          exact absurd (fun p hp => by cases hp) hfollows
      | some y =>
          refine ⟨t, y, ht, ?_, hx, rfl, ?_⟩
          · rw [htaken]
            exact hfollows
          · rw [← UInt32.not_lt]
            intro hlt
            apply hfollows
            rw [hlast]
            intro p hp
            cases hp
            rw [← hid]
            exact hlt
  · exact Or.inl hx

/-- An extension that is not in range. -/
theorem extensionsEncodeStep_range (h : ¬ x.Encodable) (out cap offset : Nat) (s : Out) :
    (extensionsEncodeStep out cap i offset previousId x).run s = .error (.status .range) s := by
  rw [extensionsEncodeStep, run_failIf_stop]
  by_contra hno
  exact h (Extension.encodable_iff.mpr (range_check_iff.mp hno))

/-- One in range that is not in order. -/
theorem extensionsEncodeStep_order {t : Tlv} (h : x.Is t)
    (hno : ¬ tlvCode.Follows (previousOf i previousId) t) (out cap offset : Nat) (s : Out) :
    (extensionsEncodeStep out cap i offset previousId x).run s =
      .error (.status .noncanonical) s := by
  rw [extensionsEncodeStep, run_failIf_skip (range_check_iff.mpr ⟨t, h⟩), run_failIf_stop]
  by_contra hyes
  exact hno ((order_check_iff h).mp hyes)

theorem extensionsEncodedSizeStep_range (h : ¬ x.Encodable) (total : Nat) :
    extensionsEncodedSizeStep i total previousId x = .error (.status .range) := by
  rw [extensionsEncodedSizeStep, failIf_pos, except_bind_error]
  by_contra hno
  exact h (Extension.encodable_iff.mpr (range_check_iff.mp hno))

theorem extensionsEncodedSizeStep_order {t : Tlv} (h : x.Is t)
    (hno : ¬ tlvCode.Follows (previousOf i previousId) t) (total : Nat) :
    extensionsEncodedSizeStep i total previousId x = .error (.status .noncanonical) := by
  rw [extensionsEncodedSizeStep, failIf_neg _ (range_check_iff.mpr ⟨t, h⟩), except_bind_ok,
    failIf_pos, except_bind_error]
  by_contra hyes
  exact hno ((order_check_iff h).mp hyes)

/-- One turn of the loop of the encoder: the extension offends, or is taken. -/
theorem extensionsEncodeStep_cases {cap : Nat} (hpre : Fitting cap pre)
    (htaken : Taken pre i previousId) (out : Nat) (s : Out) :
    (∃ e m, Offends cap .bufferTooSmall pre x e ∧
      (extensionsEncodeStep out cap i (blockSize pre) previousId x).run s =
        .error (.status e) { s with mem := m }) ∨
    (Fitting cap (pre ++ [x]) ∧ ∃ m,
      (extensionsEncodeStep out cap i (blockSize pre) previousId x).run s =
        .ok (blockSize (pre ++ [x])) { s with mem := m }) := by
  rcases next_cases_of_taken (x := x) hpre.1 htaken with hx | ⟨t, y, ht, hno, hx, hy, hle⟩ |
    ⟨t, ht, hfollows, hall, hsize⟩
  · exact Or.inl ⟨_, s.mem, Offends.range hx, extensionsEncodeStep_range hx out cap _ s⟩
  · exact Or.inl ⟨_, s.mem, Offends.order hx hy hle, extensionsEncodeStep_order ht hno out cap _ s⟩
  · obtain ⟨hroom, hfull⟩ := extensionsEncodeStep_run ht hfollows hpre.2 out s
    rw [← hsize] at hroom hfull
    rcases Nat.lt_or_ge cap (blockSize (pre ++ [x])) with hlt | hle
    · obtain ⟨m, hrun⟩ := hfull hlt
      exact Or.inl ⟨_, m, Offends.full hall hlt, hrun⟩
    · exact Or.inr ⟨⟨hall, hle⟩, _, hroom hle⟩

/-- One turn of the loop of the size function. -/
theorem extensionsEncodedSizeStep_cases (hpre : Fitting extensionBlockMax pre)
    (htaken : Taken pre i previousId) :
    (∃ e, Offends extensionBlockMax .range pre x e ∧
      extensionsEncodedSizeStep i (blockSize pre) previousId x = .error (.status e)) ∨
    (Fitting extensionBlockMax (pre ++ [x]) ∧
      extensionsEncodedSizeStep i (blockSize pre) previousId x = .ok (blockSize (pre ++ [x]))) := by
  rcases next_cases_of_taken (x := x) hpre.1 htaken with hx | ⟨t, y, ht, hno, hx, hy, hle⟩ |
    ⟨t, ht, hfollows, hall, hsize⟩
  · exact Or.inl ⟨_, Offends.range hx, extensionsEncodedSizeStep_range hx _⟩
  · exact Or.inl ⟨_, Offends.order hx hy hle, extensionsEncodedSizeStep_order ht hno _⟩
  · have hrun := extensionsEncodedSizeStep_run ht hfollows hpre.2
    rw [← hsize] at hrun
    rcases Nat.lt_or_ge extensionBlockMax (blockSize (pre ++ [x])) with hlt | hle
    · rw [if_neg (Nat.not_le.mpr hlt)] at hrun
      exact Or.inl ⟨_, Offends.full hall hlt, hrun⟩
    · rw [if_pos hle] at hrun
      exact Or.inr ⟨⟨hall, hle⟩, hrun⟩

end Steps

/-! ## The loops

By induction on the list, with the extensions that have been taken on the other side: the first turn
that does not take its extension ends the loop, with the reason as its status. -/

/-- The loop of the encoder stops at the first extension that offends. -/
theorem extensionsEncodeLoop_error_iff {cap i : Nat} {previousId : UInt32}
    {pre xs : List (Extension CallerValue)} (hpre : Fitting cap pre)
    (htaken : Taken pre i previousId) (out : Nat) (s : Out) {e : Exit} :
    statusOf ((extensionsEncodeLoop out cap xs i (blockSize pre) previousId).run s) = some e ↔
      ∃ x, e = .status x ∧ First (Fitting cap) (Offends cap .bufferTooSmall) pre xs x := by
  induction xs generalizing pre i previousId s with
  | nil =>
      constructor
      · intro h
        cases h
      · rintro ⟨x, -, h⟩
        exact absurd h not_first_nil
  | cons y xs ih =>
      have hlaws := offends_lawful cap .bufferTooSmall
      simp only [first_cons_iff hpre]
      rw [extensionsEncodeLoop]
      rcases extensionsEncodeStep_cases hpre htaken out s with ⟨x, m, hbad, hrun⟩ | ⟨hfits, m, hrun⟩
      · rw [run_bind_error hrun, statusOf_error]
        constructor
        · intro h
          exact ⟨x, (Option.some.inj h).symm, Or.inl hbad⟩
        · rintro ⟨z, rfl, hbad' | hlater⟩
          · rw [hlaws.unique hbad hbad']
          · exact absurd hlater (not_first_behind hlaws hbad)
      · rw [run_bind_ok hrun, ih hfits (Taken.next i y)]
        constructor
        · rintro ⟨x, he, hlater⟩
          exact ⟨x, he, Or.inr hlater⟩
        · rintro ⟨x, he, hbad | hlater⟩
          · exact absurd hfits (hlaws.excluded hbad)
          · exact ⟨x, he, hlater⟩

/-- So does the loop of the size function. -/
theorem extensionsEncodedSizeLoop_error_iff {i : Nat} {previousId : UInt32}
    {pre xs : List (Extension CallerValue)} (hpre : Fitting extensionBlockMax pre)
    (htaken : Taken pre i previousId) {e : Exit} :
    extensionsEncodedSizeLoop xs i (blockSize pre) previousId = .error e ↔
      ∃ x, e = .status x ∧ First (Fitting extensionBlockMax) (Offends extensionBlockMax .range)
        pre xs x := by
  induction xs generalizing pre i previousId with
  | nil =>
      constructor
      · intro h
        cases h
      · rintro ⟨x, -, h⟩
        exact absurd h not_first_nil
  | cons y xs ih =>
      have hlaws := offends_lawful extensionBlockMax .range
      simp only [first_cons_iff hpre]
      rw [extensionsEncodedSizeLoop]
      rcases extensionsEncodedSizeStep_cases hpre htaken with ⟨x, hbad, hrun⟩ | ⟨hfits, hrun⟩
      · rw [hrun, except_bind_error]
        constructor
        · intro h
          exact ⟨x, (Except.error.inj h).symm, Or.inl hbad⟩
        · rintro ⟨z, rfl, hbad' | hlater⟩
          · rw [hlaws.unique hbad hbad']
          · exact absurd hlater (not_first_behind hlaws hbad)
      · rw [hrun, except_bind_ok, ih hfits (Taken.next i y)]
        constructor
        · rintro ⟨x, he, hlater⟩
          exact ⟨x, he, Or.inr hlater⟩
        · rintro ⟨x, he, hbad | hlater⟩
          · exact absurd hfits (hlaws.excluded hbad)
          · exact ⟨x, he, hlater⟩

/-! ## The functions -/

section Functions

variable {xs : List (Extension CallerValue)} {e : Exit}

theorem fitting_nil (limit : Nat) : Fitting limit [] :=
  ⟨⟨fun _ h => absurd h List.not_mem_nil, List.Pairwise.nil⟩, Nat.zero_le _⟩

theorem extensionsEncode_error_iff {out cap : Nat} {s : Out} :
    statusOf ((extensionsEncode xs out cap).run s) = some e ↔
      ∃ x, e = .status x ∧ FirstOffence cap .bufferTooSmall xs x := by
  have hloop : statusOf ((extensionsEncodeLoop out cap xs 0 0 0).run s) = some e ↔
      ∃ x, e = .status x ∧ FirstOffence cap .bufferTooSmall xs x :=
    extensionsEncodeLoop_error_iff (fitting_nil cap) taken_nil out s
  rw [← hloop, extensionsEncode]
  cases hrun : (extensionsEncodeLoop out cap xs 0 0 0).run s with
  | ok offset t =>
      rw [run_bind_ok hrun]
      rfl
  | error x t =>
      rw [run_bind_error hrun, statusOf_error, statusOf_error]

theorem extensionsEncodedSize_error_iff :
    extensionsEncodedSize xs = .error e ↔
      ∃ x, e = .status x ∧ FirstOffence extensionBlockMax .range xs x :=
  extensionsEncodedSizeLoop_error_iff (fitting_nil extensionBlockMax) taken_nil

/-- Where no extension offends, the list is taken whole. -/
theorem fitting_of_no_offence (h : ∀ x, ¬ FirstOffence extensionBlockMax .range xs x) :
    Fitting extensionBlockMax xs := by
  cases hsize : extensionsEncodedSize xs with
  | ok n =>
      obtain ⟨ts, hts, hblock, hn, hsmall⟩ := extensionsEncodedSize_eq_ok.mp hsize
      refine ⟨encodable_iff.mpr ⟨ts, hts, hblock⟩, ?_⟩
      rw [hts.blockSize_eq, ← hn]
      exact hsmall
  | error x =>
      obtain ⟨y, -, hfirst⟩ := extensionsEncodedSize_error_iff.mp hsize
      exact absurd hfirst (h y)

/-- What the size function calls `RANGE`, the encoder calls `BUFFER_TOO_SMALL`. -/
theorem offends_range_iff {limit : Nat} {pre : List (Extension CallerValue)}
    {x : Extension CallerValue} {y : Err} : Offends limit .range pre x y ↔
      ∃ z, Offends limit .bufferTooSmall pre x z ∧
        y = if z = .bufferTooSmall then .range else z := by
  constructor
  · intro h
    cases h with
    | range hno => exact ⟨_, Offends.range hno, rfl⟩
    | order hx hy hle => exact ⟨_, Offends.order hx hy hle, rfl⟩
    | full hall hlt => exact ⟨_, Offends.full hall hlt, rfl⟩
  · rintro ⟨z, h, rfl⟩
    cases h with
    | range hno => exact Offends.range hno
    | order hx hy hle => exact Offends.order hx hy hle
    | full hall hlt => exact Offends.full hall hlt

end Functions

/-! ## The encoder of an object with extensions -/

/-- `EncodeRefusal o xs cap e`: why `mcl_wire_tier0_encode_ext` refuses its arguments, in the order of
its calls: the extensions, the kind, room for the object, its values, room for the block. -/
inductive EncodeRefusal (o : Tier0) (xs : List (Extension CallerValue)) (cap : Nat) : Err → Prop
  | extensions {e : Err} : FirstOffence extensionBlockMax .range xs e → EncodeRefusal o xs cap e
  | kind : Fitting extensionBlockMax xs → kindAllowedAtMajor experimentalMajor o.kind = false →
      EncodeRefusal o xs cap .unsupportedSemantic
  | object : Fitting extensionBlockMax xs → kindAllowedAtMajor experimentalMajor o.kind = true →
      cap < o.size experimentalMajor → EncodeRefusal o xs cap .bufferTooSmall
  | value : Fitting extensionBlockMax xs → kindAllowedAtMajor experimentalMajor o.kind = true →
      o.size experimentalMajor ≤ cap → o.ExceedsLayout experimentalMajor →
      EncodeRefusal o xs cap .range
  | block : xs ≠ [] → Fitting extensionBlockMax xs →
      kindAllowedAtMajor experimentalMajor o.kind = true → o.FitsLayout experimentalMajor →
      cap < o.extSize xs → EncodeRefusal o xs cap .bufferTooSmall

section EncodeExt

variable {o : Tier0} {xs : List (Extension CallerValue)} {cap out : Nat} {s : Out}

/-- The size call comes first, and its status is passed on. -/
theorem tier0EncodeExt_of_size_error {e : Exit} (h : extensionsEncodedSize xs = .error e) :
    statusOf ((tier0EncodeExt o xs out cap).run s) = some e := by
  have hne : xs ≠ [] := by
    rintro rfl
    cases h
  rw [tier0EncodeExt_of_ne_nil hne, tier0EncodeExtCalls, h]
  rfl

/-- Behind it the object encoder's status is passed on. -/
theorem tier0EncodeExt_of_object_error {e : Exit} (hxs : Fitting extensionBlockMax xs)
    (h : ∀ t : Out, statusOf ((tier0EncodeAtMajor experimentalMajor o out cap).run t) = some e) :
    statusOf ((tier0EncodeExt o xs out cap).run s) = some e := by
  by_cases hne : xs = []
  · subst hne
    exact h s
  · exact tier0EncodeExt_status_object hne hxs.1 hxs.2 out s (h _)

/-- A reason to refuse the arguments is the status of the encoder. -/
theorem EncodeRefusal.status {e : Err} (h : EncodeRefusal o xs cap e) :
    statusOf ((tier0EncodeExt o xs out cap).run s) = some (.status e) := by
  have hobject := fun t => tier0EncodeAtMajor_error experimentalMajor o out cap t
  cases h with
  | extensions hfirst =>
      exact tier0EncodeExt_of_size_error (extensionsEncodedSize_error_iff.mpr ⟨e, rfl, hfirst⟩)
  | kind hxs hno =>
      apply tier0EncodeExt_of_object_error hxs
      intro t
      rw [(hobject t).1 hno, statusOf_error]
  | object hxs hc hcap =>
      apply tier0EncodeExt_of_object_error hxs
      intro t
      rw [(hobject t).2.1 hc hcap, statusOf_error]
  | value hxs hc hcap hr =>
      apply tier0EncodeExt_of_object_error hxs
      intro t
      rw [exceedsLayout_iff hc, fitsLayout_iff hc] at hr
      obtain ⟨t', hrun, -⟩ := (hobject t).2.2 hc hcap hr
      rw [hrun, statusOf_error]
  | block hne hxs hc hr hfull =>
      by_cases hcap : cap < o.size experimentalMajor
      · apply tier0EncodeExt_of_object_error hxs
        intro t
        rw [(hobject t).2.1 hc hcap, statusOf_error]
      · rw [fitsLayout_iff hc] at hr
        exact tier0EncodeExt_status_full hne hxs.1 hxs.2 hc hr (Nat.le_of_not_lt hcap) hfull out s

/-- Whatever fails, there is such a reason. -/
theorem encodeRefusal_of_status {x : Exit}
    (h : statusOf ((tier0EncodeExt o xs out cap).run s) = some x) :
    ∃ e, x = .status e ∧ EncodeRefusal o xs cap e := by
  have hreason : ∀ {e : Err}, EncodeRefusal o xs cap e → ∃ e, x = .status e ∧
      EncodeRefusal o xs cap e := by
    intro e hrefusal
    rw [hrefusal.status] at h
    exact ⟨e, (Option.some.inj h).symm, hrefusal⟩
  by_cases hoffence : ∃ e, FirstOffence extensionBlockMax .range xs e
  · obtain ⟨e, hfirst⟩ := hoffence
    exact hreason (EncodeRefusal.extensions hfirst)
  · have hxs := fitting_of_no_offence (fun e hfirst => hoffence ⟨e, hfirst⟩)
    rcases tier0EncodeAtMajor_status experimentalMajor o out cap s with ⟨hc, -⟩ | ⟨hc, hcap, -⟩ |
      ⟨hc, hcap, hr, -⟩ | ⟨hc, hcap, hr, hstatus⟩
    · exact hreason (EncodeRefusal.kind hxs hc)
    · exact hreason (EncodeRefusal.object hxs hc hcap)
    · rw [Tier0.outOfRange_iff, ← fitsLayout_iff hc, ← exceedsLayout_iff hc] at hr
      exact hreason (EncodeRefusal.value hxs hc hcap hr)
    · rw [Tier0.outOfRange_iff, not_not] at hr
      by_cases hne : xs = []
      · subst hne
        have hnone : statusOf ((tier0EncodeExt o [] out cap).run s) = none := hstatus
        rw [hnone] at h
        cases h
      · rcases Nat.lt_or_ge cap (o.extSize xs) with hfull | hroom
        · exact hreason (EncodeRefusal.block hne hxs hc ((fitsLayout_iff hc).mpr hr) hfull)
        · obtain ⟨s', hrun, -⟩ := tier0EncodeExt_status_ok hne hxs.1 hxs.2 hc hr hroom out s
          rw [hrun, statusOf_ok] at h
          cases h

end EncodeExt

/-- Every status of the three functions that take extensions. The block encoder and the size function
stop at the first extension that is not in range, whose id is not above the one before, or for which
there is no room, with `RANGE`, `NONCANONICAL`, and `BUFFER_TOO_SMALL` or `RANGE`; so the size
function returns what the encoder returns for `MCL_WIRE_EXTENSION_BLOCK_MAX` bytes, up to the name of
the last of these. The encoder of an object with extensions fails exactly where `EncodeRefusal` says
so. -/
theorem encode_offences (xs : List (Extension CallerValue)) :
    (∀ (out cap : Nat) (s : Out) (e : Exit),
      statusOf ((extensionsEncode xs out cap).run s) = some e ↔
        ∃ x, e = .status x ∧ FirstOffence cap .bufferTooSmall xs x) ∧
    (∀ e, extensionsEncodedSize xs = .error e ↔
      ∃ x, e = .status x ∧ FirstOffence extensionBlockMax .range xs x) ∧
    (∀ (out : Nat) (s : Out) (e : Err), extensionsEncodedSize xs = .error (.status e) ↔
      ∃ x, statusOf ((extensionsEncode xs out extensionBlockMax).run s) = some (.status x) ∧
        e = if x = .bufferTooSmall then .range else x) ∧
    ∀ (o : Tier0) (out cap : Nat) (s : Out) (e : Exit),
      statusOf ((tier0EncodeExt o xs out cap).run s) = some e ↔
        ∃ x, e = .status x ∧ EncodeRefusal o xs cap x := by
  refine ⟨fun out cap s e => extensionsEncode_error_iff, fun e => extensionsEncodedSize_error_iff,
    ?_, ?_⟩
  · intro out s e
    rw [extensionsEncodedSize_error_iff]
    simp only [extensionsEncode_error_iff]
    constructor
    · rintro ⟨y, he, pre, x, post, hxs, hpre, hbad⟩
      cases he
      obtain ⟨z, hz, he⟩ := offends_range_iff.mp hbad
      exact ⟨z, ⟨z, rfl, pre, x, post, hxs, hpre, hz⟩, he⟩
    · rintro ⟨x, ⟨y, hxy, pre, z, post, hxs, hpre, hbad⟩, he⟩
      cases hxy
      exact ⟨e, rfl, pre, z, post, hxs, hpre, offends_range_iff.mpr ⟨x, hbad, he⟩⟩
  · intro o out cap s e
    constructor
    · exact encodeRefusal_of_status
    · rintro ⟨x, rfl, h⟩
      exact h.status

/-- The extension that comes first decides, whatever is wrong with a later one; and the extensions
are looked at before the object, whose kind is not assigned here. -/
example :
    extensionsEncodedSize [⟨2, 0, .bytes []⟩, ⟨1, 0, .bytes []⟩, ⟨0, 0, .bytes []⟩] =
      .error (.status .noncanonical) ∧
    extensionsEncodedSize [⟨2, 0, .bytes []⟩, ⟨0, 0, .bytes []⟩, ⟨1, 0, .bytes []⟩] =
      .error (.status .range) ∧
    statusOf ((tier0EncodeExt ⟨9, 0, .unassigned ⟨9, by decide⟩⟩ [⟨1, 2, .bytes []⟩] 0 0).run
      ⟨fun _ => 0, 0⟩) = some (.status .range) := by
  refine ⟨by decide, by decide, ?_⟩
  exact tier0EncodeExt_of_size_error (by decide)

end MclWire
