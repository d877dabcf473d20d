import MclWire.BitField
import MclWire.Footprint

/-!
# What a C function does: status codes, faults and memory

The functions of `wire.c` and `extension.c` return a status and write through pointers. Here

* a status other than `MCL_WIRE_OK` is an `Err`, and `Exit` adds the *fault*: the outcome of an
  access outside the bytes a pointer may reach, or of a `size_t` subtraction that would wrap. C
  gives no warning of either, so no function of the library may ever end in one;
* `Prog σ α` is a call whose out-parameters live in a state `σ`. An early return keeps the state as
  it was left, exactly as C does, so "what does a failed call leave behind" is a real question;
* `Mem` is the memory the encoders write into: addresses to bytes, without bounds of its own.

`MCL_TRY` is the bind of both `Except Exit` and `Prog σ`.
-/

namespace MclWire

/-! ## Status codes -/

/-- The values of `mcl_wire_status_t` other than `MCL_WIRE_OK`. -/
inductive Err where
  | invalidArgument
  | bufferTooSmall
  | range
  | truncated
  | unsupportedSemantic
  | noncanonical
  deriving DecidableEq, Repr

/-- How a call ends when it does not return `MCL_WIRE_OK`. -/
inductive Exit where
  | status (e : Err)
  | fault
  deriving DecidableEq, Repr

/-- A call over the state `σ` of its out-parameters. -/
abbrev Prog (σ α : Type) := EStateM Exit σ α

instance instDecidableEqResult {ε σ α : Type} [DecidableEq ε] [DecidableEq σ] [DecidableEq α] :
    DecidableEq (EStateM.Result ε σ α)
  | .ok a s, .ok b t       => decidable_of_iff (a = b ∧ s = t) (by simp)
  | .error d s, .error e t => decidable_of_iff (d = e ∧ s = t) (by simp)
  | .ok _ _, .error _ _    => isFalse (by simp)
  | .error _ _, .ok _ _    => isFalse (by simp)

/-- A call without out-parameters runs inside any other one (`MCL_TRY`). -/
instance {σ : Type} : MonadLift (Except Exit) (Prog σ) where
  monadLift
    | .ok a => pure a
    | .error e => throw e

/-- `if (c) return e;` -/
def failIf {m : Type → Type} [Monad m] [MonadExcept Exit m] (c : Prop) [Decidable c] (e : Err) :
    m Unit :=
  if c then throw (.status e) else pure ()

/-- `a - b` in `size_t`. -/
def sizeSub (a b : Nat) : Except Exit Nat := if b ≤ a then .ok (a - b) else .error .fault

section Run

variable {ε σ α β : Type}

@[simp] theorem run_liftM_ok (a : α) (s : σ) :
    EStateM.run (liftM (Except.ok a : Except Exit α) : Prog σ α) s = .ok a s := rfl

@[simp] theorem run_liftM_error (e : Exit) (s : σ) :
    EStateM.run (liftM (Except.error e : Except Exit α) : Prog σ α) s = .error e s := rfl

@[simp] theorem run_throw_bind (e : Exit) (f : α → Prog σ β) (s : σ) :
    ((throw e : Prog σ α) >>= f).run s = .error e s := rfl

@[simp] theorem run_pure_bind (a : α) (f : α → Prog σ β) (s : σ) :
    ((pure a : Prog σ α) >>= f).run s = (f a).run s := rfl

@[simp] theorem run_get_bind (f : σ → Prog σ β) (s : σ) :
    ((get : Prog σ σ) >>= f).run s = (f s).run s := rfl

@[simp] theorem run_set_bind (t : σ) (f : PUnit → Prog σ β) (s : σ) :
    ((set t : Prog σ PUnit) >>= f).run s = (f ⟨⟩).run t := rfl

@[simp] theorem run_modify_bind (g : σ → σ) (f : PUnit → Prog σ β) (s : σ) :
    ((modify g : Prog σ PUnit) >>= f).run s = (f ⟨⟩).run (g s) := rfl

@[simp] theorem run_liftM_ok_bind (a : α) (f : α → Prog σ β) (s : σ) :
    ((liftM (Except.ok a : Except Exit α) : Prog σ α) >>= f).run s = (f a).run s := rfl

@[simp] theorem run_liftM_error_bind (e : Exit) (f : α → Prog σ β) (s : σ) :
    ((liftM (Except.error e : Except Exit α) : Prog σ α) >>= f).run s = .error e s := rfl

/-- A check that does not fire. -/
theorem run_failIf_skip {c : Prop} [Decidable c] {e : Err} {f : Unit → Prog σ β} {s : σ} (h : ¬ c) :
    (failIf c e >>= f).run s = (f ()).run s := by
  rw [failIf, if_neg h, run_pure_bind]

/-- A check that fires. -/
theorem run_failIf_stop {c : Prop} [Decidable c] {e : Err} {f : Unit → Prog σ β} {s : σ} (h : c) :
    (failIf c e >>= f).run s = .error (.status e) s := by
  rw [failIf, if_pos h, run_throw_bind]

/-- Run a sequence whose first part is known to succeed. -/
theorem run_bind_ok {x : Prog σ α} {f : α → Prog σ β} {s s' : σ} {a : α}
    (h : x.run s = .ok a s') : (x >>= f).run s = (f a).run s' := by
  rw [EStateM.run_bind, h]

/-- Run a sequence whose first part is known to fail. -/
theorem run_bind_error {x : Prog σ α} {f : α → Prog σ β} {s s' : σ} {e : Exit}
    (h : x.run s = .error e s') : (x >>= f).run s = .error e s' := by
  rw [EStateM.run_bind, h]

/-- `MCL_TRY`, read backwards: a sequence that succeeds passed through its first part. -/
theorem run_bind_eq_ok {x : Prog σ α} {f : α → Prog σ β} {s s' : σ} {b : β} :
    (x >>= f).run s = .ok b s' ↔ ∃ a t, x.run s = .ok a t ∧ (f a).run t = .ok b s' := by
  rw [EStateM.run_bind]
  cases x.run s with
  | ok a t => simp
  | error e t => simp

@[simp] theorem except_bind_ok (a : α) (f : α → Except Exit β) :
    (Except.ok a >>= f) = f a := rfl

@[simp] theorem except_bind_error (e : Exit) (f : α → Except Exit β) :
    ((Except.error e : Except Exit α) >>= f) = .error e := rfl

theorem except_bind_eq_ok {x : Except Exit α} {f : α → Except Exit β} {b : β} :
    (x >>= f) = .ok b ↔ ∃ a, x = .ok a ∧ f a = .ok b := by
  cases x <;> simp

@[simp] theorem failIf_neg {c : Prop} [Decidable c] (e : Err) (h : ¬ c) :
    (failIf c e : Except Exit Unit) = .ok () := if_neg h

@[simp] theorem failIf_pos {c : Prop} [Decidable c] (e : Err) (h : c) :
    (failIf c e : Except Exit Unit) = .error (.status e) := if_pos h

theorem failIf_eq_ok {c : Prop} [Decidable c] {e : Err} {u : Unit} :
    (failIf c e : Except Exit Unit) = .ok u ↔ ¬ c := by
  by_cases h : c
  · simp [h]
  · simp [h]

/-- A check is no fault. -/
theorem failIf_bind_ne_fault {c : Prop} [Decidable c] {e : Err} {f : Unit → Except Exit β}
    (h : f () ≠ .error .fault) : (failIf c e >>= f) ≠ .error .fault := by
  by_cases hc : c
  · rw [failIf_pos e hc, except_bind_error]
    simp
  · rw [failIf_neg e hc, except_bind_ok]
    exact h

@[simp] theorem sizeSub_of_le {a b : Nat} (h : b ≤ a) : sizeSub a b = .ok (a - b) := if_pos h

/-- What a finished call returns: nothing stands for `MCL_WIRE_OK`. -/
def statusOf : EStateM.Result Exit σ α → Option Exit
  | .ok _ _    => none
  | .error e _ => some e

@[simp] theorem statusOf_ok (a : α) (s : σ) :
    statusOf (EStateM.Result.ok a s : EStateM.Result Exit σ α) = none := rfl

@[simp] theorem statusOf_error (e : Exit) (s : σ) :
    statusOf (EStateM.Result.error e s : EStateM.Result Exit σ α) = some e := rfl

theorem statusOf_eq_some {r : EStateM.Result Exit σ α} {e : Exit} :
    statusOf r = some e ↔ ∃ s, r = .error e s := by
  cases r <;> simp

end Run

/-! ## Memory -/

/-- The memory an encoder writes into. -/
abbrev Mem := Nat → UInt8

namespace Mem

/-- `p[0] = b` for the pointer `p` to `addr`. -/
def set (m : Mem) (addr : Nat) (b : UInt8) : Mem := fun i => if i = addr then b else m i

/-- Copy a row of bytes to `addr`, the first one first. -/
def store (m : Mem) (addr : Nat) : List UInt8 → Mem
  | [] => m
  | b :: bs => (m.set addr b).store (addr + 1) bs

/-- The `n` bytes from `addr` on. -/
def bytes (m : Mem) (addr n : Nat) : List UInt8 := (List.range n).map (fun i => m (addr + i))

@[simp] theorem set_same (m : Mem) (addr : Nat) (b : UInt8) : m.set addr b addr = b := by
  simp [set]

theorem set_other {m : Mem} {addr i : Nat} {b : UInt8} (h : i ≠ addr) : m.set addr b i = m i := by
  simp [set, h]

/-- Nothing changes outside the copied row. -/
theorem store_outside {m : Mem} {addr i : Nat} {bs : List UInt8}
    (h : ¬ (addr ≤ i ∧ i < addr + bs.length)) : m.store addr bs i = m i := by
  induction bs generalizing m addr with
  | nil => rfl
  | cons b bs ih =>
      rw [List.length_cons] at h
      rw [store, ih (by omega), set_other (by omega)]

/-- The copied row stands at its address. -/
theorem store_inside {m : Mem} {addr i : Nat} {bs : List UInt8} (h : i < bs.length) :
    m.store addr bs (addr + i) = bs[i] := by
  induction bs generalizing m addr i with
  | nil => simp at h
  | cons b bs ih =>
      rw [store]
      cases i with
      | zero => rw [store_outside (by omega), Nat.add_zero, set_same]; rfl
      | succ i =>
          have hidx : addr + (i + 1) = addr + 1 + i := by omega
          rw [hidx, ih (by simpa using h)]
          rfl

/-- Copying two rows one behind the other. -/
theorem store_append (m : Mem) (addr : Nat) (bs cs : List UInt8) :
    m.store addr (bs ++ cs) = (m.store addr bs).store (addr + bs.length) cs := by
  induction bs generalizing m addr with
  | nil => rfl
  | cons b bs ih =>
      rw [List.cons_append, store, store, ih, List.length_cons, Nat.add_assoc, Nat.add_comm 1]

@[simp] theorem length_bytes (m : Mem) (addr n : Nat) : (m.bytes addr n).length = n := by
  simp [bytes]

theorem bytes_congr {m m' : Mem} {addr addr' n : Nat} (h : ∀ i < n, m (addr + i) = m' (addr' + i)) :
    m.bytes addr n = m'.bytes addr' n := by
  rw [bytes, bytes, List.map_inj_left]
  intro i hi
  exact h i (List.mem_range.mp hi)

theorem bytes_add (m : Mem) (addr a b : Nat) :
    m.bytes addr (a + b) = m.bytes addr a ++ m.bytes (addr + a) b := by
  simp [bytes, List.range_add, Function.comp_def, Nat.add_assoc]

/-- A row in front of a copied one stays. -/
theorem bytes_store_outside {m : Mem} {addr out n : Nat} {bs : List UInt8} (h : out + n ≤ addr) :
    (m.store addr bs).bytes out n = m.bytes out n :=
  bytes_congr (fun i hi => store_outside (by omega))

/-- A row that does not contain an address does not see a byte stored there. -/
theorem bytes_set_outside {m : Mem} {addr out n : Nat} {b : UInt8}
    (h : ¬ (out ≤ addr ∧ addr < out + n)) : (m.set addr b).bytes out n = m.bytes out n :=
  bytes_congr (fun i hi => set_other (by omega))

/-- What was copied is read back. -/
theorem bytes_store (m : Mem) (addr : Nat) (bs : List UInt8) :
    (m.store addr bs).bytes addr bs.length = bs := by
  apply List.ext_getElem
  · simp
  · intro i h₁ h₂
    simp only [bytes, List.getElem_map, List.getElem_range]
    exact store_inside h₂

end Mem

/-! ## Input bytes

A buffer handed to a decoder is the list of the bytes its pointer may reach; `p + n` is the list
without its first `n` bytes. -/

/-- The bits of an input buffer; bits behind its end read as zero. -/
def bitsOf (data : List UInt8) : Nat → Bool := BitField.byteBits (fun j => data.getD j 0)

/-- The bits of a row of bytes in memory are those of the memory at its address. -/
theorem bitsOf_bytes (m : Mem) (addr : Nat) {n i : Nat} (h : i < 8 * n) :
    bitsOf (m.bytes addr n) i = BitField.byteBits m (8 * addr + i) := by
  have hlt : i / 8 < (m.bytes addr n).length := by
    rw [Mem.length_bytes]
    omega
  rw [BitField.byteBits_add, bitsOf, BitField.byteBits, BitField.byteBits,
    ← List.getElem_eq_getD (h := hlt)]
  simp only [Mem.bytes, List.getElem_map, List.getElem_range]

/-- Bytes behind a buffer leave its bits alone. -/
theorem bitsOf_append {data : List UInt8} {i : Nat} (h : i < 8 * data.length) (more : List UInt8) :
    bitsOf (data ++ more) i = bitsOf data i := by
  have hlt : i / 8 < data.length := by omega
  rw [bitsOf, bitsOf, BitField.byteBits, BitField.byteBits, List.getD_append _ _ _ _ hlt]

/-- The `len` bytes at `off` of a buffer. -/
def slice (data : List UInt8) (off len : Nat) : List UInt8 := (data.drop off).take len

/-- Dropping from a slice moves its start. -/
theorem drop_slice (data : List UInt8) (off len k : Nat) :
    (slice data off len).drop k = slice data (off + k) (len - k) := by
  rw [slice, slice, List.drop_take, List.drop_drop]

/-- A slice inside a buffer does not see what is appended to it. -/
theorem slice_append {data more : List UInt8} {off len : Nat} (h : off + len ≤ data.length) :
    slice (data ++ more) off len = slice data off len := by
  rw [slice, slice, List.drop_append_of_le_length (by omega), List.take_append_of_le_length
    (by rw [List.length_drop]; omega)]

theorem length_slice {data : List UInt8} {off len : Nat} (h : off + len ≤ data.length) :
    (slice data off len).length = len := by
  rw [slice, List.length_take, List.length_drop]
  omega

end MclWire
