import MclWire.Footprint
import MclWire.Frame

/-!
# What the encoders leave untouched

The encoders write at moving offsets into a buffer whose old content they do not know, and one of
them patches a byte that another one has written. Whatever happens, they write inside the capacity,
and `*written` is stored last.

* `within_extensionsEncode`, `within_encodeExt` — the encoders are confined to their buffer, by the
  rules of `Footprint`.
* `encoders_frame` — the frame condition of the four encoders.
-/

namespace MclWire

open Footprint (stateOf stateOf_ok stateOf_error Within FailsWithin within_pure within_throw
  within_modify failsWithin_modify)

variable {σ α β ι γ : Type}

/-! ## Rules for the calls of this library

The rules of `Footprint` for the operations that the encoders are made of. Behind a check its condition
is known not to hold, which is where the bounds come from. -/

section Rules

variable {look : σ → ι → γ} {I : ι → Prop}

theorem within_liftM (x : Except Exit α) : Within look I (liftM x : Prog σ α) := by
  cases x with
  | ok a => exact within_pure a
  | error e => exact within_throw e

/-- Behind a check its condition is known not to hold. -/
theorem within_failIf {c : Prop} [Decidable c] {e : Err} {f : Unit → Prog σ β}
    (h : ¬ c → Within look I (f ())) : Within look I (failIf c e >>= f) := by
  by_cases hc : c
  · rw [failIf, if_pos hc]
    apply (within_throw _).bind
    intro s a t hrun
    cases hrun
  · rw [failIf, if_neg hc]
    exact h hc

/-- Behind a subtraction it is known to be in order. -/
theorem within_sizeSub {a b : Nat} {f : Nat → Prog σ β} (h : b ≤ a → Within look I (f (a - b))) :
    Within look I ((liftM (sizeSub a b) : Prog σ Nat) >>= f) := by
  apply (within_liftM _).bind
  intro s n t hrun
  by_cases hle : b ≤ a
  · rw [sizeSub_of_le hle, run_liftM_ok] at hrun
    cases hrun
    exact h hle
  · rw [sizeSub, if_neg hle, run_liftM_error] at hrun
    cases hrun

end Rules

/-- The addresses of a buffer. -/
def InBuffer (out cap addr : Nat) : Prop := out ≤ addr ∧ addr < out + cap

theorem InBuffer.part {out cap k size addr : Nat} (h : InBuffer (out + k) size addr)
    (hroom : k + size ≤ cap) : InBuffer out cap addr := by
  obtain ⟨hle, hlt⟩ := h
  exact ⟨by omega, by omega⟩

section Local

variable {p : Prog Out Unit}

theorem stateOf_withLocal (p : Prog Out Unit) (s : Out) :
    stateOf ((withLocal p).run s) =
      { s with mem := (stateOf (p.run { s with written := 0 })).mem } := by
  cases hrun : p.run { s with written := 0 } with
  | ok u t => rw [run_withLocal_ok hrun, stateOf_ok, stateOf_ok]
  | error e t => rw [run_withLocal_error hrun, stateOf_error, stateOf_error]

theorem within_withLocal {I : Nat → Prop} (h : Within Out.mem I p) :
    Within Out.mem I (withLocal p) := by
  intro s i hi
  rw [stateOf_withLocal]
  exact h _ i hi

/-- A call with a local `written` leaves the caller's `*written` alone. -/
theorem written_withLocal :
    Within (fun (s : Out) (_ : Unit) => s.written) (fun _ => False) (withLocal p) := by
  intro s i _
  rw [stateOf_withLocal]

end Local

/-! ## Inside the capacity

Each encoder checks the capacity before it writes. Call by call, what is written stays in the buffer that
the call was given, and that is a part of the buffer of the caller. -/

theorem within_store {out cap addr : Nat} {bs : List UInt8} (h : out ≤ addr)
    (hroom : addr + bs.length ≤ out + cap) :
    Within Out.mem (InBuffer out cap)
      (modify fun s : Out => { s with mem := s.mem.store addr bs } : Prog Out PUnit) := by
  apply within_modify
  intro s i hi
  apply Mem.store_outside
  rintro ⟨hle, hlt⟩
  exact hi ⟨by omega, by omega⟩

theorem within_uvarintEncode (value : UInt32) (out cap : Nat) :
    Within Out.mem (InBuffer out cap) (uvarintEncode value out cap) := by
  intro s i hi
  rw [uvarintEncode_run]
  split
  · rfl
  · next hcap =>
    apply Mem.store_outside
    rintro ⟨hle, hlt⟩
    exact hi ⟨hle, by omega⟩

theorem length_load {value : CallerValue} {content : List UInt8} (h : value.load = .ok content) :
    content.length = value.size := by
  cases value with
  | null size =>
      rw [CallerValue.load] at h
      split at h
      · next hsize =>
        cases h
        exact hsize.symm
      · cases h
  | bytes content' =>
      cases h
      rfl

theorem within_extensionsEncodeStep (out cap i offset : Nat) (previousId : UInt32)
    (x : Extension CallerValue) :
    Within Out.mem (InBuffer out cap) (extensionsEncodeStep out cap i offset previousId x) := by
  have hfield : ∀ {off : Nat} (value : UInt32), off ≤ cap →
      Within Out.mem (InBuffer out cap) (withLocal (uvarintEncode value (out + off) (cap - off))) := by
    intro off value hoff
    apply within_withLocal
    apply (within_uvarintEncode value (out + off) (cap - off)).mono
    intro addr haddr
    exact haddr.part (by omega)
  rw [extensionsEncodeStep]
  apply within_failIf
  intro _
  apply within_failIf
  intro _
  apply within_failIf
  intro _
  apply within_sizeSub
  intro hoffset
  apply (hfield _ hoffset).bind
  intro _ keySize _ _
  apply within_failIf
  intro _
  apply within_sizeSub
  intro hkey
  apply (hfield _ hkey).bind
  intro _ lengthSize _ _
  apply within_sizeSub
  intro hlength
  apply within_failIf
  intro hroom
  apply (within_liftM _).bind
  intro s content t hload
  have hcontent : x.value.load = .ok content := by
    cases hx : x.value.load with
    | error e =>
        rw [hx] at hload
        cases hload
    | ok c =>
        rw [hx] at hload
        cases hload
        rfl
  have hsize := length_load hcontent
  apply (within_store (Nat.le_add_right _ _) (by omega)).bind
  intro _ _ _ _
  exact within_pure _

/-- The offset is checked against the capacity before every write, so the loop needs no invariant. -/
theorem within_extensionsEncodeLoop (out cap : Nat) (xs : List (Extension CallerValue))
    (i offset : Nat) (previousId : UInt32) :
    Within Out.mem (InBuffer out cap) (extensionsEncodeLoop out cap xs i offset previousId) := by
  induction xs generalizing i offset previousId with
  | nil => exact within_pure offset
  | cons x xs ih =>
      apply (within_extensionsEncodeStep out cap i offset previousId x).bind
      intro _ offset' _ _
      exact ih (i + 1) offset' x.id

theorem within_extensionsEncode (xs : List (Extension CallerValue)) (out cap : Nat) :
    Within Out.mem (InBuffer out cap) (extensionsEncode xs out cap) := by
  apply (within_extensionsEncodeLoop out cap xs 0 0 0).bind
  intro _ _ _ _
  apply within_modify
  intro s addr _
  rfl

theorem within_encodeAtMajor (major : UInt8) (o : Tier0) (out cap : Nat) :
    Within Out.mem (InBuffer out cap) (tier0EncodeAtMajor major o out cap) := by
  intro s addr haddr
  obtain ⟨hno, hsmall, hrange⟩ := tier0EncodeAtMajor_error major o out cap s
  cases hc : kindAllowedAtMajor major o.kind with
  | false => rw [hno hc, stateOf_error]
  | true =>
      rcases Nat.lt_or_ge cap (o.size major) with hcap | hcap
      · rw [hsmall hc hcap, stateOf_error]
      · have houtside : ¬ (out ≤ addr ∧ addr < out + o.size major) := by
          rintro ⟨hle, hlt⟩
          exact haddr ⟨hle, by omega⟩
        by_cases hr : o.InRange major
        · obtain ⟨m, hrun, -, hm⟩ := tier0EncodeAtMajor_ok hc hcap hr out s
          rw [hrun, stateOf_ok]
          exact hm addr houtside
        · obtain ⟨s', hrun, -, hm⟩ := hrange hc hcap hr
          rw [hrun, stateOf_error]
          exact hm addr houtside

theorem within_encodeExtCalls (o : Tier0) (xs : List (Extension CallerValue)) (out cap : Nat) :
    Within Out.mem (InBuffer out cap) (tier0EncodeExtCalls o xs out cap) := by
  apply (within_liftM _).bind
  intro _ block _ _
  apply (within_withLocal (within_encodeAtMajor experimentalMajor o out cap)).bind
  intro _ body _ _
  apply within_sizeSub
  intro hbody
  apply Within.bind
  · apply within_withLocal
    apply (within_uvarintEncode _ (out + body) (cap - body)).mono
    intro addr haddr
    exact haddr.part (by omega)
  intro _ lengthSize _ _
  apply within_sizeSub
  intro _
  apply within_sizeSub
  intro hlength
  apply Within.bind
  · apply within_withLocal
    apply (within_extensionsEncode xs (out + body + lengthSize) (cap - body - lengthSize)).mono
    intro addr haddr
    rw [Nat.add_assoc] at haddr
    exact haddr.part (by omega)
  intro _ _ _ _
  exact within_pure _

/-- The patched byte belongs to the header the first call has written. -/
theorem within_encodeExt (o : Tier0) (xs : List (Extension CallerValue)) (out cap : Nat) :
    Within Out.mem (InBuffer out cap) (tier0EncodeExt o xs out cap) := by
  rw [tier0EncodeExt]
  by_cases hnil : xs.length = 0
  · rw [if_pos hnil]
    exact within_encodeAtMajor experimentalMajor o out cap
  · rw [if_neg hnil]
    apply (within_encodeExtCalls o xs out cap).bind
    intro s sizes t hcalls
    obtain ⟨ts, -, -, -, hc, -, hroom⟩ := tier0EncodeExtCalls_sound hcalls
    have htwo : 2 ≤ o.size experimentalMajor := two_le_size hc
    apply within_failIf
    intro _
    apply Within.bind
    · apply within_modify
      intro s addr haddr
      apply Mem.set_other
      rintro rfl
      exact haddr ⟨by omega, by omega⟩
    intro _ _ _ _
    apply within_modify
    intro s addr _
    rfl

/-! ## When the call fails

`*written` is stored last, behind everything that can fail. The calls inside an encoder store into a
local variable of it. -/

/-- The call leaves `*written` alone if it fails. -/
abbrev KeepsWritten (p : Prog Out Unit) : Prop :=
  FailsWithin (fun (s : Out) (_ : Unit) => s.written) (fun _ => False) p

theorem KeepsWritten.eq {p : Prog Out Unit} (h : KeepsWritten p) {s s' : Out} {e : Exit}
    (hrun : p.run s = .error e s') : s'.written = s.written := h s e s' () hrun not_false

theorem keepsWritten_uvarintEncode (value : UInt32) (out cap : Nat) :
    KeepsWritten (uvarintEncode value out cap) := by
  intro s e s' _ hrun _
  rw [uvarintEncode_run] at hrun
  split at hrun
  · cases hrun
    rfl
  · cases hrun

theorem keepsWritten_extensionsEncode (xs : List (Extension CallerValue)) (out cap : Nat) :
    KeepsWritten (extensionsEncode xs out cap) := by
  intro s e s' _ hrun _
  by_cases h : ∃ ts, Spells xs ts ∧ IsBlock ts
  · obtain ⟨ts, hxs, hblock⟩ := h
    obtain ⟨hroom, hfull⟩ := extensionsEncode_run hxs hblock out cap s
    rcases Nat.lt_or_ge cap (blockOf ts).length with hlt | hle
    · obtain ⟨m, herror⟩ := hfull hlt
      rw [hrun] at herror
      cases herror
      rfl
    · rw [hroom hle] at hrun
      cases hrun
  · obtain ⟨e', m, herror, -⟩ := extensionsEncode_refused h out cap s
    rw [hrun] at herror
    cases herror
    rfl

theorem keepsWritten_encodeAtMajor (major : UInt8) (o : Tier0) (out cap : Nat) :
    KeepsWritten (tier0EncodeAtMajor major o out cap) := by
  intro s e s' _ hrun _
  obtain ⟨hno, hsmall, hrange⟩ := tier0EncodeAtMajor_error major o out cap s
  cases hc : kindAllowedAtMajor major o.kind with
  | false =>
      rw [hno hc] at hrun
      cases hrun
      rfl
  | true =>
      rcases Nat.lt_or_ge cap (o.size major) with hcap | hcap
      · rw [hsmall hc hcap] at hrun
        cases hrun
        rfl
      · by_cases hr : o.InRange major
        · obtain ⟨m, hok, -⟩ := tier0EncodeAtMajor_ok hc hcap hr out s
          rw [hok] at hrun
          cases hrun
        · obtain ⟨t, herror, hwritten, -⟩ := hrange hc hcap hr
          rw [herror] at hrun
          cases hrun
          exact hwritten

/-- The four calls write into locals, and `*written` is stored behind the last check. -/
theorem keepsWritten_encodeExt (o : Tier0) (xs : List (Extension CallerValue)) (out cap : Nat) :
    KeepsWritten (tier0EncodeExt o xs out cap) := by
  rw [tier0EncodeExt]
  by_cases hnil : xs.length = 0
  · rw [if_pos hnil]
    exact keepsWritten_encodeAtMajor experimentalMajor o out cap
  · rw [if_neg hnil]
    apply FailsWithin.bind
    · apply (within_liftM _).bind
      intro _ _ _ _
      apply written_withLocal.bind
      intro _ _ _ _
      apply (within_liftM _).bind
      intro _ _ _ _
      apply written_withLocal.bind
      intro _ _ _ _
      apply (within_liftM _).bind
      intro _ _ _ _
      apply (within_liftM _).bind
      intro _ _ _ _
      apply written_withLocal.bind
      intro _ _ _ _
      exact within_pure _
    intro sizes
    apply FailsWithin.bind
    · rw [failIf]
      split
      · exact within_throw _
      · exact within_pure _
    intro _
    apply FailsWithin.bind
    · apply within_modify
      intro s _ _
      rfl
    intro _
    exact failsWithin_modify _

/-! ## The frame condition -/

/-- The frame condition of an encoder: it writes inside the capacity; when it succeeds it has
changed nothing but the bytes it reports, and would report the same bytes over any other buffer;
when it fails it has reported nothing. -/
structure FrameCondition (p : Prog Out Unit) (out cap : Nat) : Prop where
  capacity : ∀ s addr, ¬ InBuffer out cap addr → (stateOf (p.run s)).mem addr = s.mem addr
  unchanged : ∀ s s', p.run s = .ok () s' →
    ∀ addr, ¬ InBuffer out s'.written addr → s'.mem addr = s.mem addr
  determined : ∀ s s', p.run s = .ok () s' → ∀ t, ∃ t', p.run t = .ok () t' ∧
    t'.written = s'.written ∧ t'.mem.bytes out s'.written = s'.mem.bytes out s'.written
  failed : ∀ s e s', p.run s = .error e s' → s'.written = s.written

/-- An encoder that stores bytes which do not depend on the buffer. -/
theorem FrameCondition.of_stores {p : Prog Out Unit} {out cap : Nat}
    (hwithin : Within Out.mem (InBuffer out cap) p) (hkeeps : KeepsWritten p)
    (hstores : ∀ s s', p.run s = .ok () s' → ∃ bs : List UInt8, ∀ t, ∃ t', p.run t = .ok () t' ∧
      t'.written = bs.length ∧ t'.mem.bytes out bs.length = bs ∧
      ∀ addr, ¬ InBuffer out bs.length addr → t'.mem addr = t.mem addr) :
    FrameCondition p out cap := by
  refine ⟨hwithin, ?_, ?_, ?_⟩
  · intro s s' hrun addr haddr
    obtain ⟨bs, hbs⟩ := hstores s s' hrun
    obtain ⟨t', hrun', hwritten, -, houtside⟩ := hbs s
    rw [hrun] at hrun'
    cases hrun'
    rw [hwritten] at haddr
    exact houtside addr haddr
  · intro s s' hrun t
    obtain ⟨bs, hbs⟩ := hstores s s' hrun
    obtain ⟨u, hrun', hwritten, hbytes, -⟩ := hbs s
    rw [hrun] at hrun'
    cases hrun'
    obtain ⟨t', hrunt, hwrittent, hbytest, -⟩ := hbs t
    refine ⟨t', hrunt, hwrittent.trans hwritten.symm, ?_⟩
    rw [hwritten, hbytes, hbytest]
  · intro s e s' hrun
    exact hkeeps.eq hrun

theorem stores_bytes {p : Prog Out Unit} {out : Nat} {bs : List UInt8}
    (h : ∀ t, p.run t = .ok () ⟨t.mem.store out bs, bs.length⟩) (t : Out) :
    ∃ t', p.run t = .ok () t' ∧ t'.written = bs.length ∧ t'.mem.bytes out bs.length = bs ∧
      ∀ addr, ¬ InBuffer out bs.length addr → t'.mem addr = t.mem addr :=
  ⟨_, h t, rfl, Mem.bytes_store t.mem out bs, fun _ haddr => Mem.store_outside haddr⟩

/-- The frame condition holds of all four encoders, for every input and every capacity. -/
theorem encoders_frame :
    (∀ value out cap, FrameCondition (uvarintEncode value out cap) out cap) ∧
    (∀ xs out cap, FrameCondition (extensionsEncode xs out cap) out cap) ∧
    (∀ major o out cap, FrameCondition (tier0EncodeAtMajor major o out cap) out cap) ∧
    ∀ o xs out cap, FrameCondition (tier0EncodeExt o xs out cap) out cap := by
  refine ⟨?_, ?_, ?_, ?_⟩
  · intro value out cap
    apply FrameCondition.of_stores (within_uvarintEncode value out cap)
      (keepsWritten_uvarintEncode value out cap)
    intro s s' hrun
    refine ⟨Base128.encode value.toNat, stores_bytes ?_⟩
    intro t
    rw [uvarintEncode_run] at hrun ⊢
    split at hrun
    · cases hrun
    · next hcap => rw [if_neg hcap]
  · intro xs out cap
    apply FrameCondition.of_stores (within_extensionsEncode xs out cap)
      (keepsWritten_extensionsEncode xs out cap)
    intro s s' hrun
    obtain ⟨ts, hxs, hblock, hcap, -⟩ := extensionsEncode_eq_ok.mp hrun
    refine ⟨blockOf ts, stores_bytes ?_⟩
    intro t
    exact (extensionsEncode_run hxs hblock out cap t).1 hcap
  · intro major o out cap
    apply FrameCondition.of_stores (within_encodeAtMajor major o out cap)
      (keepsWritten_encodeAtMajor major o out cap)
    intro s s' hrun
    obtain ⟨hc, hr, hcap⟩ := tier0EncodeAtMajor_eq_ok.mp ⟨s', hrun⟩
    refine ⟨o.image major 0, ?_⟩
    intro t
    obtain ⟨m, hrun', hbytes, houtside⟩ := tier0EncodeAtMajor_ok hc hcap hr out t
    rw [Tier0.length_image]
    exact ⟨_, hrun', rfl, hbytes, houtside⟩
  · intro o xs out cap
    apply FrameCondition.of_stores (within_encodeExt o xs out cap)
      (keepsWritten_encodeExt o xs out cap)
    intro s s' hrun
    obtain ⟨f, hmajor, rfl, hxs, -, hlength, hcap⟩ := tier0EncodeExt_frame hrun
    rw [hlength] at hcap
    refine ⟨f.bytes, ?_⟩
    intro t
    exact tier0EncodeExt_run hmajor hxs hcap out t

end MclWire
