import MclWire.Spellings

/-!
# Concise binary objects

The data items of CBOR that have a definite length, as formal languages: of each item the language of
its encodings. An item starts with a head, a major type and an argument. The argument may stand in
the first byte if it is below 24, or else in 1, 2, 4 or 8 bytes behind it, also where it would fit
into fewer.

* `shortest_head`, `delimited_head` — the shortest heads, which are what a canonical encoder emits,
  and that a head tells its major type and argument.
* `integer`, `text`, `map` — integers, texts and maps, of which the same is shown.
-/

namespace Cbor

/-! ## Arguments -/

/-- The number some bytes stand for, most significant byte first. -/
def bigEndian (bytes : List UInt8) : Nat := bytes.foldl (fun acc b => 256 * acc + b.toNat) 0

/-- The last `k` bytes of a number. -/
def bytesOf : Nat → Nat → List UInt8
  | 0, _     => []
  | k + 1, n => bytesOf k (n / 256) ++ [UInt8.ofNat n]

@[simp] theorem bigEndian_nil : bigEndian [] = 0 := rfl

@[simp] theorem bigEndian_concat (bytes : List UInt8) (b : UInt8) :
    bigEndian (bytes ++ [b]) = 256 * bigEndian bytes + b.toNat := by
  rw [bigEndian, List.foldl_append]
  rfl

theorem bigEndian_lt (bytes : List UInt8) : bigEndian bytes < 256 ^ bytes.length := by
  induction bytes using List.reverseRecOn with
  | nil => simp
  | append_singleton bytes b ih =>
      have hb := b.toNat_lt
      rw [bigEndian_concat, List.length_append, List.length_singleton, Nat.pow_succ]
      omega

@[simp] theorem length_bytesOf (k n : Nat) : (bytesOf k n).length = k := by
  induction k generalizing n with
  | zero => rfl
  | succ k ih => rw [bytesOf, List.length_append, ih, List.length_singleton]

theorem bigEndian_bytesOf {k n : Nat} (h : n < 256 ^ k) : bigEndian (bytesOf k n) = n := by
  induction k generalizing n with
  | zero =>
      rw [Nat.pow_zero, Nat.lt_one_iff] at h
      rw [h]
      rfl
  | succ k ih =>
      rw [Nat.pow_succ] at h
      rw [bytesOf, bigEndian_concat, ih (by omega), UInt8.toNat_ofNat']
      omega

/-! ## Heads -/

/-- The first byte: the major type, and the argument or its size. -/
def initial (major : Fin 8) (info : Nat) : UInt8 := UInt8.ofNat (32 * major + info)

/-- The heads of a major type and an argument. -/
def head (major : Fin 8) (n : Nat) : Language UInt8 :=
  {w | (n < 24 ∧ w = [initial major n]) ∨
    ∃ k < 4, ∃ bytes, bytes.length = 2 ^ k ∧ bigEndian bytes = n ∧
      w = initial major (24 + k) :: bytes}

/-- How long the shortest one is. -/
def headSize (n : Nat) : Nat :=
  if n < 24 then 1
  else if n < 256 ^ 1 then 2
  else if n < 256 ^ 2 then 3
  else if n < 256 ^ 4 then 5
  else 9

/-- The head with `2 ^ k` bytes for the argument. -/
theorem mem_head {major : Fin 8} {n k : Nat} (hk : k < 4) (h : n < 256 ^ 2 ^ k) :
    initial major (24 + k) :: bytesOf (2 ^ k) n ∈ head major n :=
  Or.inr ⟨k, hk, _, length_bytesOf _ _, bigEndian_bytesOf h, rfl⟩

theorem headSize_le {major : Fin 8} {n : Nat} {w : List UInt8} (hw : w ∈ head major n) :
    headSize n ≤ w.length := by
  rcases hw with ⟨hn, rfl⟩ | ⟨k, hk, bytes, hlen, hvalue, rfl⟩
  · rw [headSize, if_pos hn]
    rfl
  · have hlt := bigEndian_lt bytes
    rw [hvalue, hlen] at hlt
    rw [List.length_cons, hlen, headSize]
    have hcases : k = 0 ∨ k = 1 ∨ k = 2 ∨ k = 3 := by omega
    rcases hcases with rfl | rfl | rfl | rfl <;> split_ifs <;> omega

/-- The shortest heads. -/
theorem shortest_head (major : Fin 8) {n : Nat} (h : n < 2 ^ 64) :
    Shortest (head major n) (headSize n) := by
  have hword : ∃ w ∈ head major n, w.length = headSize n := by
    unfold headSize
    split_ifs with h₀ h₁ h₂ h₃
    · exact ⟨_, Or.inl ⟨h₀, rfl⟩, rfl⟩
    · exact ⟨_, mem_head (k := 0) (by omega) h₁, by simp⟩
    · exact ⟨_, mem_head (k := 1) (by omega) h₂, by simp⟩
    · exact ⟨_, mem_head (k := 2) (by omega) h₃, by simp⟩
    · exact ⟨_, mem_head (k := 3) (by omega) h, by simp⟩
  obtain ⟨w, hw, hlen⟩ := hword
  rw [← hlen]
  apply Shortest.of_word hw
  intro v hv
  rw [hlen]
  exact headSize_le hv

theorem initial_inj {major major' : Fin 8} {i j : Nat} (hi : i < 32) (hj : j < 32)
    (h : initial major i = initial major' j) : major = major' ∧ i = j := by
  have hlt := major.isLt
  have hlt' := major'.isLt
  rw [initial, initial, ← UInt8.toNat_inj, UInt8.toNat_ofNat', UInt8.toNat_ofNat'] at h
  refine ⟨?_, by omega⟩
  apply Fin.ext
  omega

/-- A head tells its major type and its argument. -/
theorem delimited_head : Delimited fun p : Fin 8 × Nat => head p.1 p.2 := by
  rintro ⟨major, m⟩ ⟨major', n⟩ v w r s hv hw h
  rcases hv with ⟨hm, rfl⟩ | ⟨k, hk, bytes, hlen, rfl, rfl⟩
  · rcases hw with ⟨hn, rfl⟩ | ⟨l, hl, bytes', hlen', rfl, rfl⟩
    · obtain ⟨hfirst, hrest⟩ := List.cons.inj h
      obtain ⟨rfl, hmn⟩ := initial_inj (by omega) (by omega) hfirst
      exact ⟨Prod.ext rfl hmn, hrest⟩
    · have hfirst := (List.cons.inj h).1
      have := (initial_inj (by omega) (by omega) hfirst).2
      omega
  · rcases hw with ⟨hn, rfl⟩ | ⟨l, hl, bytes', hlen', rfl, rfl⟩
    · have hfirst := (List.cons.inj h).1
      have := (initial_inj (by omega) (by omega) hfirst).2
      omega
    · obtain ⟨hfirst, hrest⟩ := List.cons.inj h
      obtain ⟨rfl, hkl⟩ := initial_inj (by omega) (by omega) hfirst
      obtain rfl : k = l := by omega
      obtain ⟨rfl, rfl⟩ := List.append_inj hrest (hlen.trans hlen'.symm)
      exact ⟨rfl, rfl⟩

/-! ## Items -/

/-- The major type and the argument of an integer. -/
def integerHead (z : Int) : Fin 8 × Nat := if 0 ≤ z then (0, z.toNat) else (1, (-1 - z).toNat)

/-- An integer. -/
def integer (z : Int) : Language UInt8 := head (integerHead z).1 (integerHead z).2

/-- A text. -/
def text (bytes : List UInt8) : Language UInt8 := head 3 bytes.length * {bytes}

/-- A map, with the keys and the values that `f` and `g` encode. -/
def map {ι κ : Type} (f : ι → Language UInt8) (g : κ → Language UInt8) (pairs : List (ι × κ)) :
    Language UInt8 :=
  head 5 pairs.length * (pairs.map fun p => f p.1 * g p.2).prod

theorem shortest_integer {z : Int} (hle : -2 ^ 64 ≤ z) (hlt : z < 2 ^ 64) :
    Shortest (integer z) (headSize (integerHead z).2) := by
  apply shortest_head
  unfold integerHead
  split_ifs with h
  · show z.toNat < 2 ^ 64
    omega
  · show (-1 - z).toNat < 2 ^ 64
    omega

theorem delimited_integer : Delimited integer := by
  intro y z v w r s hv hw h
  have hhead : integerHead y = integerHead z ∧ r = s := delimited_head hv hw h
  obtain ⟨heq, rfl⟩ := hhead
  refine ⟨?_, rfl⟩
  unfold integerHead at heq
  split_ifs at heq with hy hz hz
  · have harg := congrArg Prod.snd heq
    dsimp only at harg
    omega
  · cases congrArg Prod.fst heq
  · cases congrArg Prod.fst heq
  · have harg := congrArg Prod.snd heq
    dsimp only at harg
    omega

theorem shortest_text {bytes : List UInt8} (h : bytes.length < 2 ^ 64) :
    Shortest (text bytes) (headSize bytes.length + bytes.length) :=
  (shortest_head 3 h).mul (Shortest.word bytes)

theorem delimited_text : Delimited text := by
  rintro x y _ _ r s ⟨v, hv, x', hx, rfl⟩ ⟨w, hw, y', hy, rfl⟩ h
  cases Set.mem_singleton_iff.mp hx
  cases Set.mem_singleton_iff.mp hy
  dsimp only at h
  rw [List.append_assoc, List.append_assoc] at h
  have hhead : ((3 : Fin 8), x.length) = (3, y.length) ∧ x ++ r = y ++ s := delimited_head hv hw h
  obtain ⟨hlen, h⟩ := hhead
  exact List.append_inj h (congrArg Prod.snd hlen)

section Map

variable {ι κ : Type} {f : ι → Language UInt8} {g : κ → Language UInt8}

theorem shortest_map (pairs : List (ι × κ)) {m : ι → Nat} {n : κ → Nat}
    (hcount : pairs.length < 2 ^ 64)
    (hf : ∀ p ∈ pairs, Shortest (f p.1) (m p.1)) (hg : ∀ p ∈ pairs, Shortest (g p.2) (n p.2)) :
    Shortest (map f g pairs) (headSize pairs.length + (pairs.map fun p => m p.1 + n p.2).sum) := by
  apply (shortest_head 5 hcount).mul
  apply Shortest.prod
  intro p hp
  exact (hf p hp).mul (hg p hp)

theorem delimited_map (hf : Delimited f) (hg : Delimited g) : Delimited (map f g) := by
  rintro ps qs _ _ r s ⟨v, hv, v', hv', rfl⟩ ⟨w, hw, w', hw', rfl⟩ h
  dsimp only at h
  rw [List.append_assoc, List.append_assoc] at h
  have hhead : ((5 : Fin 8), ps.length) = (5, qs.length) ∧ v' ++ r = w' ++ s :=
    delimited_head hv hw h
  obtain ⟨hlen, h⟩ := hhead
  exact Delimited.prod (hf.mul hg) (congrArg Prod.snd hlen) hv' hw' h

end Map

end Cbor
