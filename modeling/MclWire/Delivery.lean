import MclWire.Agreement

/-!
# Objects in one string, and in pieces

Objects stand one behind the other with no envelope, so a string of them has to be taken apart in one
way only, and a receiver that gets it in pieces has to find the same objects.

* `stream_injective` — what encoders emit, one call behind the other, determines what was sent.
* `Drains.reads`, `Delivers.reads` — what a receiver gets is the reading of the bytes it was given as
  frames that its policy accepts, whether they came at once or in pieces.
* `delivery` — the pieces in which a string arrives do not matter.

The callback is part of the receiver: it is run by calls that fail as well, and what it keeps is
passed on. A policy that answers by the extension alone (`Steady`) makes the calls the reading of a
self-delimiting code, and a reading has one result.
-/

namespace MclWire

open SelfDelimiting (Code)

variable {σ : Type}

/-! ## One string

A row of calls of the encoders writes a row of frames, and a string is a row of frames in one way only.
What the calls have said can be read off the frames, so that the rows themselves are known from the
bytes. -/

/-- What a successful call of an encoder says: the major, the object as it is received, and its
extensions. -/
def Sent.meaning (x : Sent) : UInt8 × Tier0 × List (Extension (List UInt8)) :=
  (x.major, x.object.atMajor x.major, x.extensions.map (Extension.map CallerValue.content))

/-- What a frame says. -/
def Frame.meaning (f : Frame) : UInt8 × Tier0 × List (Extension (List UInt8)) :=
  (f.major, f.object, f.extensions.map Subtype.val)

/-- The frame of a call says what the call says. -/
theorem Sent.frame_meaning (x : Sent) : ∃ f : Frame, f.bytes = x.bytes ∧ f.meaning = x.meaning := by
  obtain ⟨f, hmajor, hobject, hxs, hbytes, -, -⟩ := x.emitted.frame
  refine ⟨f, hbytes, ?_⟩
  rw [Frame.meaning, Sent.meaning, hmajor, hobject, hxs.contents]

/-- A frame is determined by what it says. -/
theorem Frame.meaning_injective : Function.Injective Frame.meaning := by
  intro f g h
  obtain ⟨hmajor, hobject, hextensions⟩ := Prod.ext_iff.mp h |>.imp_right Prod.ext_iff.mp
  exact Frame.eq_of hmajor hobject
    (List.map_injective_iff.mpr Subtype.val_injective hextensions)

theorem chain_frames (fs : List Frame) : frameCode.Chain () fs := by
  induction fs with
  | nil => exact Code.Chain.nil ()
  | cons f fs ih => exact Code.Chain.cons trivial ih

/-- The frames of a row of calls. -/
theorem sent_frames (xs : List Sent) : ∃ fs : List Frame,
    frameCode.row fs = xs.flatMap Sent.bytes ∧
      fs.map Frame.meaning = xs.map Sent.meaning := by
  induction xs with
  | nil => exact ⟨[], rfl, rfl⟩
  | cons x xs ih =>
      obtain ⟨f, hbytes, hmeaning⟩ := x.frame_meaning
      obtain ⟨fs, hrow, hmap⟩ := ih
      refine ⟨f :: fs, ?_, ?_⟩
      · rw [Code.row_cons, List.flatMap_cons, hrow, ← hbytes]
        rfl
      · rw [List.map_cons, List.map_cons, hmeaning, hmap]

/-- There is one way to take apart what encoders have emitted. The bytes of a row of calls are the
beginning of those of another row exactly when the calls say the beginning of what the others say:
the majors, the objects as they are received, and the extensions, one by one. -/
theorem stream_injective (xs ys : List Sent) :
    (xs.flatMap Sent.bytes <+: ys.flatMap Sent.bytes ↔
      xs.map Sent.meaning <+: ys.map Sent.meaning) ∧
    (xs.flatMap Sent.bytes = ys.flatMap Sent.bytes ↔ xs.map Sent.meaning = ys.map Sent.meaning) := by
  have hcontinued : ∀ xs ys : List Sent, xs.flatMap Sent.bytes <+: ys.flatMap Sent.bytes ↔
      xs.map Sent.meaning <+: ys.map Sent.meaning := by
    intro xs ys
    obtain ⟨fs, hrow, hmap⟩ := sent_frames xs
    obtain ⟨gs, hrow', hmap'⟩ := sent_frames ys
    rw [← hrow, ← hrow', ← hmap, ← hmap', (chain_frames fs).row_prefix_iff (chain_frames gs)]
    constructor
    · intro h
      exact h.map _
    · intro h
      rw [List.prefix_iff_eq_take, ← List.map_take, List.length_map] at h
      rw [List.prefix_iff_eq_take]
      exact List.map_injective_iff.mpr Frame.meaning_injective h
  refine ⟨hcontinued xs ys, ?_⟩
  -- equal strings are beginnings of each other
  have hequal : ∀ {α : Type} {l m : List α}, l = m ↔ l <+: m ∧ m <+: l := by
    intro α l m
    constructor
    · rintro rfl
      exact ⟨List.prefix_refl l, List.prefix_refl l⟩
    · rintro ⟨h, h'⟩
      exact h.eq_of_length (Nat.le_antisymm h.length_le h'.length_le)
  rw [hequal, hequal, hcontinued xs ys, hcontinued ys xs]

/-! ## Pieces

A receiver that gets a string in pieces decodes what it can and keeps the rest. That it ends up with the
same objects as from the whole string is no fact about buffers alone, since a call that fails may have
asked the callback; it holds of a policy. With one, both receivers follow the reading of the string as a
self-delimiting code, whose rest is where the next piece goes on. -/

/-- A policy: the verdict on an extension is decided by the extension, and not by what the callback
has been asked before. What the callback keeps in `user` is its own affair. -/
def Steady (accept : Option (Accept σ)) : Prop :=
  ∀ f, accept = some f → ∀ user user' id value, (f user id value).1 = 0 ↔ (f user' id value).1 = 0

/-- The callback lets the critical extensions of a frame through, whatever it has been asked before. -/
def Grants (accept : Option (Accept σ)) (f : Frame) : Prop :=
  ∀ user, (consultAll accept f.extensions user).1 = true

/-- `Drains accept s d rs s' rest`: a receiver that has `d` in hand calls the decoder, advancing by
`*consumed`, until a call fails. It has received `rs`, has `rest` in hand, and the last call has left
`s'` behind. -/
inductive Drains (accept : Option (Accept σ)) :
    DecodeExtOut σ → List UInt8 → List Received → DecodeExtOut σ → List UInt8 → Prop
  | failed {s s' : DecodeExtOut σ} {d : List UInt8} {e : Exit} :
      (tier0DecodeExtAccept d accept).run s = .error e s' → Drains accept s d [] s' d
  | next {s s' s'' : DecodeExtOut σ} {d rest : List UInt8} {rs : List Received}
      {ys : List (Extension (List UInt8))} {r : ExtensionReader} :
      (tier0DecodeExtAccept d accept).run s = .ok () s' → Iterates s'.reader ys r →
      Drains accept s' (d.drop s'.consumed) rs s'' rest →
      Drains accept s d (⟨s'.object, ys, s'.consumed⟩ :: rs) s'' rest

/-- `Delivers accept s buffer pieces rs s' rest`: a receiver that has `buffer` in hand gets `pieces`
one after the other. It puts each behind what it has, and calls the decoder until a call fails. -/
inductive Delivers (accept : Option (Accept σ)) : DecodeExtOut σ → List UInt8 → List (List UInt8) →
    List Received → DecodeExtOut σ → List UInt8 → Prop
  | done (s : DecodeExtOut σ) (buffer : List UInt8) : Delivers accept s buffer [] [] s buffer
  | piece {s s' s'' : DecodeExtOut σ} {buffer piece rest rest' : List UInt8}
      {pieces : List (List UInt8)} {rs rs' : List Received} :
      Drains accept s (buffer ++ piece) rs s' rest →
      Delivers accept s' rest pieces rs' s'' rest' →
      Delivers accept s buffer (piece :: pieces) (rs ++ rs') s'' rest'

/-- The frames that a callback lets through, as a self-delimiting code: they are frames, so a string
starts with at most one of them. -/
def grantedCode (accept : Option (Accept σ)) : Code Unit Frame UInt8 :=
  { frameCode with
    Follows := fun _ f => Grants accept f
    spell_unique := fun _ _ hf hg => Frame.unique hf hg }

section Pieces

variable {accept : Option (Accept σ)} {s s' : DecodeExtOut σ} {d rest buffer : List UInt8}
  {rs : List Received} {pieces : List (List UInt8)}

/-- A steady policy has one verdict on a row of extensions. -/
theorem Steady.consultAll_eq (h : Steady accept) (ts : List Tlv) (user user' : σ) :
    (consultAll accept ts user).1 = (consultAll accept ts user').1 := by
  induction ts generalizing user user' with
  | nil => rfl
  | cons t ts ih =>
      simp only [consultAll]
      by_cases hcritical : t.val.critical = 0
      · rw [if_pos hcritical, if_pos hcritical]
        exact ih user user'
      · rw [if_neg hcritical, if_neg hcritical]
        cases haccept : accept with
        | none => rfl
        | some f =>
            have hverdict := h f haccept user user' t.val.id t.val.value
            by_cases hno : (f user t.val.id t.val.value).1 = 0
            · simp only [if_pos hno, if_pos (hverdict.mp hno)]
            · simp only [if_neg hno, if_neg (mt hverdict.mpr hno)]
              rw [← haccept]
              exact ih _ _

theorem Steady.grants_iff (h : Steady accept) {f : Frame} (user : σ) :
    Grants accept f ↔ (consultAll accept f.extensions user).1 = true := by
  constructor
  · intro hgrants
    exact hgrants user
  · intro hverdict user'
    rw [h.consultAll_eq f.extensions user' user]
    exact hverdict

/-- What a receiver gets until a call fails is the reading of what it has in hand. A call that succeeds
takes the frame in front, and a call that fails says that none is there that the callback lets
through; what the callback keeps plays no part in it. -/
theorem Drains.reads (hsteady : Steady accept) (h : Drains accept s d rs s' rest) :
    ∃ fs b, (grantedCode accept).Reads () d fs b ∧ d = frameCode.row fs ++ rest ∧
      rs = fs.map Frame.received := by
  induction h with
  | @failed s s' d e hrun =>
      have hno : ∀ f, Grants accept f → ¬ f.bytes <+: d := by
        intro f hgrants hf
        rw [Frame.tier0DecodeExtAccept_run hf (hgrants s.user)] at hrun
        cases hrun
      by_cases hd : d = []
      · subst hd
        exact ⟨[], true, Code.Reads.done (), rfl, rfl⟩
      · exact ⟨[], false, Code.Reads.stuck hd hno, rfl, rfl⟩
  | @next s s₁ s' d rest rs ys r hrun hiter _ ih =>
      obtain ⟨fs, b, hreads, hd, hrs⟩ := ih
      obtain ⟨f, hf, hconsult, hobject, hreader, hconsumed⟩ := tier0DecodeExtAccept_eq_ok.mp hrun
      have hgrants := (hsteady.grants_iff s.user).mpr (congrArg Prod.fst hconsult)
      rw [hreader] at hiter
      have hys := (Frame.iterates_reader hf).mp ⟨r, hiter⟩
      have hsplit : d = f.bytes ++ d.drop s₁.consumed := by
        rw [hconsumed]
        exact List.prefix_iff_eq_append.mp hf |>.symm
      refine ⟨f :: fs, b, ?_, ?_, ?_⟩
      · rw [hsplit]
        exact Code.Reads.item (C := grantedCode accept) hgrants hreads
      · rw [Code.row_cons, List.append_assoc, ← hd]
        exact hsplit
      · rw [List.map_cons, ← hrs, Frame.received, hobject, hys, hconsumed]

/-- So is what a receiver gets from pieces: each time the reading goes on from what was left. -/
theorem Delivers.reads (hsteady : Steady accept) (h : Delivers accept s buffer pieces rs s' rest)
    {b : Bool} (hbuffer : (grantedCode accept).Reads () buffer [] b) :
    ∃ fs c, (grantedCode accept).Reads () (buffer ++ pieces.flatten) fs c ∧
      buffer ++ pieces.flatten = frameCode.row fs ++ rest ∧ rs = fs.map Frame.received := by
  induction h generalizing b with
  | done s buffer =>
      rw [List.flatten_nil, List.append_nil]
      exact ⟨[], b, hbuffer, rfl, rfl⟩
  | @piece s s₁ s' buffer piece rest rest' pieces rs rs' hcalls _ ih =>
      obtain ⟨fs, b₁, hreads, hd, hrs⟩ := hcalls.reads hsteady
      obtain ⟨gs, c, hreads', hd', hrs'⟩ := ih (hreads.rest hd)
      refine ⟨fs ++ gs, c, ?_, ?_, ?_⟩
      · rw [List.flatten_cons, ← List.append_assoc]
        exact hreads.append hd hreads'
      · rw [List.flatten_cons, ← List.append_assoc, hd, List.append_assoc, hd', Code.row, Code.row,
          Code.row, List.flatMap_append, List.append_assoc]
      · rw [List.map_append, hrs, hrs']

/-- A receiver comes to a call that fails, since a call that succeeds takes at least a byte. -/
theorem exists_drains (accept : Option (Accept σ)) (s : DecodeExtOut σ) (d : List UInt8) :
    ∃ rs s' rest, Drains accept s d rs s' rest := by
  induction hn : d.length using Nat.strongRecOn generalizing s d with
  | _ n ih =>
    subst hn
    cases hrun : (tier0DecodeExtAccept d accept).run s with
    | error e s' => exact ⟨[], s', d, Drains.failed hrun⟩
    | ok _ s₁ =>
        obtain ⟨f, hf, -, hobject, hreader, hconsumed⟩ := tier0DecodeExtAccept_eq_ok.mp hrun
        obtain ⟨r, hiter⟩ := (Frame.iterates_reader hf).mpr rfl
        rw [← hreader] at hiter
        have hpos := List.length_pos_iff.mpr f.bytes_ne_nil
        have hle := hf.length_le
        obtain ⟨rs, s', rest, hrest⟩ := ih (d.drop s₁.consumed).length
          (by rw [List.length_drop]; omega) s₁ _ rfl
        exact ⟨_, s', rest, Drains.next hrun hiter hrest⟩

theorem exists_delivers (accept : Option (Accept σ)) (s : DecodeExtOut σ) (buffer : List UInt8)
    (pieces : List (List UInt8)) : ∃ rs s' rest, Delivers accept s buffer pieces rs s' rest := by
  induction pieces generalizing s buffer with
  | nil => exact ⟨[], s, buffer, Delivers.done s buffer⟩
  | cons piece pieces ih =>
      obtain ⟨rs, s₁, rest, hcalls⟩ := exists_drains accept s (buffer ++ piece)
      obtain ⟨rs', s', rest', hlater⟩ := ih s₁ rest
      exact ⟨rs ++ rs', s', rest', Delivers.piece hcalls hlater⟩

end Pieces

/-- The pieces in which a string arrives do not matter to a caller with a policy. There are objects
`rs` and a rest such that a receiver that has the whole string at once, and calls the decoder until a
call fails, receives `rs` and keeps that rest; and so does a receiver that gets the string in pieces,
however it is cut, and calls the decoder behind each until a call fails. Both come to an end, whatever
state their callbacks start in and whatever the calls that fail leave in it. -/
theorem delivery {accept : Option (Accept σ)} (hsteady : Steady accept)
    (pieces : List (List UInt8)) (s t : DecodeExtOut σ) :
    ∃ rs rest, (∃ s', Drains accept s pieces.flatten rs s' rest) ∧
      (∃ t', Delivers accept t [] pieces rs t' rest) ∧
      (∀ rs' s' rest', Drains accept s pieces.flatten rs' s' rest' → rs' = rs ∧ rest' = rest) ∧
      ∀ rs' t' rest', Delivers accept t [] pieces rs' t' rest' → rs' = rs ∧ rest' = rest := by
  have hnothing : (grantedCode accept).Reads () [] [] true := Code.Reads.done ()
  obtain ⟨rs, s', rest, hwhole⟩ := exists_drains accept s pieces.flatten
  obtain ⟨rs₁, t', rest₁, hpieces⟩ := exists_delivers accept t [] pieces
  obtain ⟨fs, b, hreads, hd, hrs⟩ := hwhole.reads hsteady
  have hsame : ∀ {gs c rest'}, (grantedCode accept).Reads () pieces.flatten gs c →
      pieces.flatten = frameCode.row gs ++ rest' → gs.map Frame.received = rs ∧ rest' = rest := by
    intro gs c rest' hreads' hd'
    obtain ⟨rfl, -⟩ := hreads.unique hreads'
    rw [hd, List.append_cancel_left_eq] at hd'
    exact ⟨hrs.symm, hd'.symm⟩
  have hdelivers : ∀ rs' t' rest', Delivers accept t [] pieces rs' t' rest' →
      rs' = rs ∧ rest' = rest := by
    intro rs' t' rest' h
    obtain ⟨gs, c, hreads', hd', rfl⟩ := h.reads hsteady hnothing
    exact hsame hreads' hd'
  refine ⟨rs, rest, ⟨s', hwhole⟩, ?_, ?_, hdelivers⟩
  · obtain ⟨rfl, rfl⟩ := hdelivers _ _ _ hpieces
    exact ⟨t', hpieces⟩
  · intro rs' s'' rest' h
    obtain ⟨gs, c, hreads', hd', rfl⟩ := h.reads hsteady
    exact hsame hreads' hd'

/-- A presence with the extension 7 and the first byte of another object, cut inside the block: however
the receiver of the pieces makes its calls, it gets the presence and keeps the byte. -/
theorem delivery_criticalPresence :
    (∃ rs t', Delivers (some acceptSeven) ⟨⟨0, 0, .hazard {}⟩, extensionReaderInit [] 0, 0, 0⟩ []
      [criticalPresence.take 13, criticalPresence.drop 13 ++ [0x10]] rs t' [0x10]) ∧
    ∀ rs t' rest, Delivers (some acceptSeven) ⟨⟨0, 0, .hazard {}⟩, extensionReaderInit [] 0, 0, 0⟩ []
      [criticalPresence.take 13, criticalPresence.drop 13 ++ [0x10]] rs t' rest →
      rs = [⟨⟨1, 2, .presence ⟨3, 4, 5⟩⟩, [⟨7, 1, [0xaa]⟩], 15⟩] ∧ rest = [0x10] := by
  have hsteady : Steady (some acceptSeven) := by
    rintro f ⟨⟩ user user' id value
    exact Iff.rfl
  have hwhole : ∃ s', Drains (some acceptSeven)
      ⟨⟨0, 0, .hazard {}⟩, extensionReaderInit [] 0, 0, 0⟩ (criticalPresence ++ [0x10])
      [⟨⟨1, 2, .presence ⟨3, 4, 5⟩⟩, [⟨7, 1, [0xaa]⟩], 15⟩] s' [0x10] := by
    have hfirst : (tier0DecodeExtAccept (criticalPresence ++ [0x10]) (some acceptSeven)).run
        ⟨⟨0, 0, .hazard {}⟩, extensionReaderInit [] 0, 0, 0⟩ =
      .ok () ⟨⟨1, 2, .presence ⟨3, 4, 5⟩⟩, extensionReaderInit [15, 1, 0xaa, 0x10] 3, 15, 1⟩ := by
      decide +kernel
    have hlast : (tier0DecodeExtAccept [0x10] (some acceptSeven)).run
        ⟨⟨1, 2, .presence ⟨3, 4, 5⟩⟩, extensionReaderInit [15, 1, 0xaa, 0x10] 3, 15, 1⟩ =
      .error (.status .truncated)
        ⟨⟨1, 2, .presence ⟨3, 4, 5⟩⟩, extensionReaderInit [15, 1, 0xaa, 0x10] 3, 15, 1⟩ := by
      decide +kernel
    have hnext : extensionReaderNext.run (extensionReaderInit [15, 1, 0xaa, 0x10] 3) =
        .ok (some ⟨7, 1, ⟨2, 1⟩⟩) ⟨[15, 1, 0xaa, 0x10], 3, 3, 7, 1⟩ := by
      decide +kernel
    exact ⟨_, Drains.next hfirst (Iterates.next hnext (Iterates.done rfl)) (Drains.failed hlast)⟩
  obtain ⟨s', hwhole⟩ := hwhole
  obtain ⟨rs, rest, -, hpieces, honly, hall⟩ := delivery hsteady
    [criticalPresence.take 13, criticalPresence.drop 13 ++ [0x10]]
    ⟨⟨0, 0, .hazard {}⟩, extensionReaderInit [] 0, 0, 0⟩
    ⟨⟨0, 0, .hazard {}⟩, extensionReaderInit [] 0, 0, 0⟩
  obtain ⟨rfl, rfl⟩ := honly _ _ _ hwhole
  exact ⟨⟨_, hpieces⟩, hall⟩

/-- A callback that refuses the first time and accepts from then on. -/
def refuseOnce : Accept Bool := fun asked _ _ => (if asked then 1 else 0, true)

/-- Without a policy the pieces do matter, since a call that fails has asked the callback too. Over the
whole of these 16 bytes `refuseOnce` refuses; cut behind the presence, it refuses the first time and
accepts when the last byte is there. -/
example :
    statusOf ((tier0DecodeExtAccept (criticalPresence ++ [0]) (some refuseOnce)).run
      ⟨⟨0, 0, .hazard {}⟩, extensionReaderInit [] 0, 0, false⟩) =
        some (.status .unsupportedSemantic) ∧
    (tier0DecodeExtAccept criticalPresence (some refuseOnce)).run
      ⟨⟨0, 0, .hazard {}⟩, extensionReaderInit [] 0, 0, false⟩ =
        .error (.status .unsupportedSemantic)
          ⟨⟨1, 2, .presence ⟨3, 4, 5⟩⟩, extensionReaderInit [] 0, 0, true⟩ ∧
    statusOf ((tier0DecodeExtAccept (criticalPresence ++ [0]) (some refuseOnce)).run
      ⟨⟨1, 2, .presence ⟨3, 4, 5⟩⟩, extensionReaderInit [] 0, 0, true⟩) = none := by
  decide +kernel

end MclWire
