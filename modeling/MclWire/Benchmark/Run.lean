import MclWire.Benchmark.Sizes
import MclWire.Frame

/-!
# A run of the benchmark

`benchmarks/benchmark_source.c`: `populate_object`, and `main` from the file it has read to the
totals it has added up. Opening the file and printing the means are left out. Each turn of the loop
encodes an event into an array, decodes it again and compares; what the array and the decoded object
hold before that is whatever stood on the stack.

* `measure_iff` — the checks behind the encoder never fail.
* `runEvents_sound`, `runEvents_complete` — the loop goes through to the closing bracket exactly
  where the text is a row of events that can be encoded.
* `benchmark_iff` — when the benchmark passes, and what the totals are.
-/

namespace MclWire

open CText

namespace Benchmark

/-! ## Objects -/

/-- `require_value`; `none` where `BENCH_REQUIRE` fails. -/
def requireValue (event : List Field) (name : Text) : Option Int64 :=
  (getField event name).map Field.value

/-- `(uint8_t)value` -/
def toU8 (value : Int64) : UInt8 := value.toUInt64.toUInt8

/-- `(uint16_t)value` -/
def toU16 (value : Int64) : UInt16 := value.toUInt64.toUInt16

/-- `(uint32_t)value` -/
def toU32 (value : Int64) : UInt32 := value.toUInt64.toUInt32

/-- `(mcl_wire_kind_t)type` -/
def kindOf (type : Int64) : Kind :=
  let code := toU8 type
  if h : 6 < code then .unassigned ⟨code, h⟩
  else if code = 0 then .presence
  else if code = 1 then .hazard
  else if code = 2 then .request
  else if code = 3 then .authorityClaim
  else if code = 4 then .degradedState
  else if code = 5 then .transportOffer
  else .transportAccept

/-- The cases of `populate_object`. -/
def populateBody (event : List Field) : Kind → Option Body
  | .presence => do
      let machineClass ← requireValue event "machine_class".toList
      let capabilityTag ← requireValue event "capability_tag".toList
      let ttl ← requireValue event "ttl".toList
      return .presence ⟨toU8 machineClass, toU32 capabilityTag, toU8 ttl⟩
  | .hazard => do
      let hazardClass ← requireValue event "hazard_class".toList
      let severity ← requireValue event "severity".toList
      let confidence ← requireValue event "confidence".toList
      let x ← requireValue event "x".toList
      let y ← requireValue event "y".toList
      let z ← requireValue event "z".toList
      let radius ← requireValue event "radius".toList
      let ttl ← requireValue event "ttl".toList
      return .hazard ⟨toU8 hazardClass, toU8 severity, toU8 confidence, x.toInt16, y.toInt16,
        z.toInt16, toU16 radius, toU8 ttl⟩
  | .request => do
      let requestClass ← requireValue event "request_class".toList
      let targetRef ← requireValue event "target_ref".toList
      let x ← requireValue event "x".toList
      let y ← requireValue event "y".toList
      let radius ← requireValue event "radius".toList
      let ttl ← requireValue event "ttl".toList
      return .request ⟨toU8 requestClass, toU32 targetRef, x.toInt16, y.toInt16, toU16 radius,
        toU8 ttl⟩
  | .authorityClaim => do
      let authorityClass ← requireValue event "authority_class".toList
      let jurisdiction ← requireValue event "jurisdiction".toList
      let credentialRef ← requireValue event "credential_ref".toList
      let validity ← requireValue event "validity".toList
      return .authorityClaim ⟨toU8 authorityClass, toU16 jurisdiction, toU32 credentialRef,
        toU8 validity⟩
  | .degradedState => do
      let affectedCapability ← requireValue event "affected_capability".toList
      let health ← requireValue event "health".toList
      let severity ← requireValue event "severity".toList
      let ttl ← requireValue event "ttl".toList
      return .degradedState ⟨toU8 affectedCapability, toU8 health, toU8 severity, toU8 ttl⟩
  | .transportOffer => do
      -- the case file carries no `migration_ref`
      let transportId ← requireValue event "transport_id".toList
      let profileId ← requireValue event "profile_id".toList
      let endpointToken ← requireValue event "endpoint_token".toList
      let validity ← requireValue event "validity".toList
      return .transportOffer ⟨1, toU8 transportId, toU8 profileId, toU32 endpointToken,
        toU8 validity⟩
  | _ => none

/-- `populate_object` -/
def populateObject (event : List Field) : Option Tier0 := do
  let type ← requireValue event "type".toList
  let priority ← requireValue event "priority".toList
  let sourceRef ← requireValue event "source_ref".toList
  let body ← populateBody event (kindOf type)
  return ⟨toU8 priority, toU32 sourceRef, body⟩

/-! ## The run -/

/-- How `main` ends when it does not get to its report: with a status of its own, or in
`bench_require`. -/
inductive Stop where
  | status (code : Nat)
  | required
  deriving DecidableEq, Repr

/-- `BENCH_REQUIRE` -/
def require (c : Prop) [Decidable c] : Except Stop Unit := if c then .ok () else .error .required

/-- A function that ends in `bench_require` where it has no result. -/
def required {α : Type} : Option α → Except Stop α
  | some a => .ok a
  | none   => .error .required

/-- `MCL_BENCH_FILE_CAPACITY` -/
def fileCapacity : Nat := 16384

/-- What `main` adds up. -/
structure Totals where
  caseCount : Nat := 0
  json : Nat := 0
  cborString : Nat := 0
  cborInteger : Nat := 0
  protobuf : Nat := 0
  fixed : Nat := 0
  context : Nat := 0
  deriving DecidableEq, Repr

/-- `+=`, for each of them. -/
def Totals.add (s t : Totals) : Totals where
  caseCount := s.caseCount + t.caseCount
  json := s.json + t.json
  cborString := s.cborString + t.cborString
  cborInteger := s.cborInteger + t.cborInteger
  protobuf := s.protobuf + t.protobuf
  fixed := s.fixed + t.fixed
  context := s.context + t.context

/-- What stands on the stack: the memory of `encoded`, and `decoded`. -/
structure Stack where
  mem : Mem
  decoded : Tier0

/-- A turn of the loop of `main` behind `parse_event`: what it adds to the totals. -/
def measure (stack : Stack) (event : List Field) : Except Stop Totals := do
  let object ← required (populateObject event)
  let fixedSize := tier0EncodedSize object.kind
  match (tier0Encode object 0 tier0MaxSize).run ⟨stack.mem, 0⟩ with
  | .error _ _ => throw .required
  | .ok _ out =>
      require (out.written = fixedSize)
      match (tier0Decode (out.mem.bytes 0 out.written)).run ⟨stack.decoded, 0⟩ with
      | .error _ _ => throw .required
      | .ok _ s =>
          require (s.consumed = out.written)
          -- `memcmp`: both objects were cleared before they were filled
          require (object = s.object)
          let cborString ← required (cborSize event false)
          let cborInteger ← required (cborSize event true)
          let protobuf ← required (protobufSize event)
          return { caseCount := 1, json := jsonSize event, cborString, cborInteger, protobuf,
                   fixed := fixedSize, context := fixedSize - 3 }

theorem skipWs_length_le (p : Text) : (skipWs p).length ≤ p.length :=
  (List.dropWhile_suffix _).length_le

theorem parseEvent_length {p rest : Text} {event : List Field}
    (h : parseEvent p = some (event, rest)) : rest.length < p.length := by
  obtain ⟨-, t, ht, rfl⟩ := parseEvent_iff.mp h
  obtain ⟨b, u, -, -, rfl⟩ := mem_eventText.mp ht
  rw [List.length_append, List.length_append, List.length_cons]
  omega

/-- `if (p<end && *p==',') ++p;` -/
def skipComma (p : Text) : Text := (expect ',' p).getD p

theorem skipComma_length_le (p : Text) : (skipComma p).length ≤ p.length := by
  rw [skipComma]
  cases h : expect ',' p with
  | none => exact Nat.le_refl _
  | some q =>
      rw [expect_eq_some.mp h]
      exact Nat.le_succ _

/-- The loop of `main`, with the stack that each turn finds. -/
def runEvents (stack : Nat → Stack) (p : Text) (totals : Totals) : Except Stop Totals :=
  match _hp : skipWs p with
  | [] => .error (.status 4)
  | c :: cs =>
      if c = ']' then
        .ok totals
      else
        match _h : parseEvent (c :: cs) with
        | none => .error (.status 5)
        | some (event, rest) => do
            let sizes ← measure (stack totals.caseCount) event
            runEvents stack (skipComma (skipWs rest)) (totals.add sizes)
termination_by p.length
decreasing_by
  have hevent := parseEvent_length _h
  rw [← _hp] at hevent
  calc (skipComma (skipWs rest)).length
      ≤ (skipWs rest).length := skipComma_length_le _
    _ ≤ rest.length := skipWs_length_le rest
    _ < (skipWs p).length := hevent
    _ ≤ p.length := skipWs_length_le p

/-- The checks of the totals at the end of `main`. -/
def checkTotals (totals : Totals) : Except Stop Totals := do
  require (totals.caseCount = 41)
  require (totals.json = 4999)
  require (totals.cborString = 3585)
  require (totals.cborInteger = 1085)
  require (totals.protobuf = 922)
  require (totals.fixed = 618)
  require (totals.context = 495)
  return totals

/-- `"events":[` -/
def eventsKey : Text := "\"events\":[".toList

/-- `main` on a file that can be read, up to the totals it reports. -/
def run (stack : Nat → Stack) (file : Text) : Except Stop Totals := do
  let buffer := file.take (fileCapacity - 1)
  if buffer.length = fileCapacity - 1 then
    throw (.status 2)
  match strstr eventsKey (cString buffer) with
  | none => throw (.status 3)
  | some events =>
      -- `events+strlen(...)`, as a place in the buffer
      let start := (cString buffer).length - events.length + eventsKey.length
      let totals ← runEvents stack (buffer.drop start) {}
      checkTotals totals

/-! ## A turn

A turn fills an object, measures the formats, encodes the object and decodes it again. An object that
can be encoded is decoded to itself, so that of all the checks only the first ones can fail. -/

/-- What an event adds to the totals: the lengths of its shortest encodings, and that of the object
it says, which can be encoded. -/
structure Measured (event : List Field) (sizes : Totals) : Prop where
  caseCount : sizes.caseCount = 1
  json : Shortest (eventText event) sizes.json
  cborString : Shortest (cbor false event) sizes.cborString
  cborInteger : Shortest (cbor true event) sizes.cborInteger
  protobuf : Shortest (protobuf event) sizes.protobuf
  fixed : ∃ o, populateObject event = some o ∧ o.InRange experimentalMajor ∧
    sizes.fixed = (o.image experimentalMajor 0).length
  context : sizes.context = sizes.fixed - 3

theorem Measured.unique {event : List Field} {s t : Totals} (h : Measured event s)
    (h' : Measured event t) : s = t := by
  obtain ⟨o, ho, -, hfixed⟩ := h.fixed
  obtain ⟨o', ho', -, hfixed'⟩ := h'.fixed
  cases ho.symm.trans ho'
  have hlen : s.fixed = t.fixed := hfixed.trans hfixed'.symm
  have hcontext : s.context = t.context := by rw [h.context, h'.context, hlen]
  cases s
  cases t
  rw [Totals.mk.injEq]
  exact ⟨h.caseCount.trans h'.caseCount.symm, h.json.unique h'.json,
    h.cborString.unique h'.cborString, h.cborInteger.unique h'.cborInteger,
    h.protobuf.unique h'.protobuf, hlen, hcontext⟩

section Turn

variable {stack : Stack} {event : List Field} {sizes : Totals}

theorem require_bind {α : Type} {c : Prop} [Decidable c] {f : Unit → Except Stop α} {a : α} :
    (require c >>= f) = .ok a ↔ c ∧ f () = .ok a := by
  rw [require]
  split
  · next h => exact ⟨fun hf => ⟨h, hf⟩, fun hf => hf.2⟩
  · next h =>
    constructor
    · intro hf
      cases hf
    · rintro ⟨hc, -⟩
      exact absurd hc h

theorem required_bind {α β : Type} {x : Option α} {f : α → Except Stop β} {b : β} :
    (required x >>= f) = .ok b ↔ ∃ a, x = some a ∧ f a = .ok b := by
  cases x with
  | none =>
      constructor
      · intro h
        cases h
      · rintro ⟨a, h, -⟩
        cases h
  | some a =>
      constructor
      · intro h
        exact ⟨a, rfl, h⟩
      · rintro ⟨_, h, hf⟩
        cases h
        exact hf

theorem populateBody_assigned (event : List Field) (kind : Kind) (c : { c : UInt8 // 6 < c }) :
    populateBody event kind ≠ some (.unassigned c) := by
  cases kind <;> simp [populateBody, Option.bind_eq_some_iff]

/-- `populate_object` fills objects of major 0. -/
theorem populateObject_carried {o : Tier0} (h : populateObject event = some o) :
    kindAllowedAtMajor experimentalMajor o.kind = true := by
  rw [populateObject] at h
  simp only [Option.bind_eq_bind, Option.bind_eq_some_iff, Option.pure_def, Option.some.injEq] at h
  obtain ⟨type, -, priority, -, sourceRef, -, body, hbody, rfl⟩ := h
  show kindAllowedAtMajor experimentalMajor body.kind = true
  cases body with
  | unassigned c => exact absurd hbody (populateBody_assigned event (kindOf type) c)
  | _ => rfl

/-- An event whose object is in range goes through all the checks. -/
theorem measure_ok (stack : Stack) (h : Admissible event) {o : Tier0} (ho : populateObject event = some o)
    (hr : o.InRange experimentalMajor) :
    ∃ sizes, measure stack event = .ok sizes ∧ Measured event sizes := by
  have hc := populateObject_carried ho
  obtain ⟨m, hrun, hbytes, -⟩ := tier0EncodeAtMajor_ok hc size_le_max hr 0 ⟨stack.mem, 0⟩
  obtain ⟨cborString, hstring, hstring'⟩ := shortest_cbor false h
  obtain ⟨cborInteger, hinteger, hinteger'⟩ := shortest_cbor true h
  obtain ⟨protobuf, hprotobuf, hprotobuf'⟩ := shortest_protobuf h.known
  have hsize : o.size experimentalMajor = tier0EncodedSize o.kind := size_experimental hc
  refine ⟨{ caseCount := 1, json := jsonSize event, cborString, cborInteger, protobuf,
            fixed := tier0EncodedSize o.kind, context := tier0EncodedSize o.kind - 3 }, ?_,
    ⟨rfl, shortest_eventText h.known, hstring', hinteger', hprotobuf', ⟨o, ho, hr, ?_⟩, rfl⟩⟩
  · rw [measure, required_bind]
    refine ⟨o, ho, ?_⟩
    rw [tier0Encode, hrun]
    dsimp only
    rw [hbytes, require_bind]
    refine ⟨hsize, ?_⟩
    rw [tier0Decode_image hc hr]
    simp only [require_bind, required_bind]
    exact ⟨trivial, trivial, cborString, hstring, cborInteger, hinteger, protobuf, hprotobuf, rfl⟩
  · rw [Tier0.length_image, hsize]

/-- Of the checks in a turn only those of `populate_object` and of the encoder can fail. -/
theorem measure_iff (h : Admissible event) : measure stack event = .ok sizes ↔
    Measured event sizes := by
  constructor
  · intro hrun
    have hobject : ∃ o, populateObject event = some o ∧ o.InRange experimentalMajor := by
      rw [measure, required_bind] at hrun
      obtain ⟨o, ho, hrun⟩ := hrun
      refine ⟨o, ho, ?_⟩
      cases hencode : (tier0Encode o 0 tier0MaxSize).run ⟨stack.mem, 0⟩ with
      | ok u out => exact (tier0EncodeAtMajor_eq_ok.mp ⟨out, hencode⟩).2.1
      | error e out =>
          rw [hencode] at hrun
          cases hrun
    obtain ⟨o, ho, hr⟩ := hobject
    obtain ⟨sizes', hrun', hmeasured⟩ := measure_ok stack h ho hr
    rw [hrun] at hrun'
    cases hrun'
    exact hmeasured
  · intro hmeasured
    obtain ⟨o, ho, hr, -⟩ := hmeasured.fixed
    obtain ⟨sizes', hrun, hmeasured'⟩ := measure_ok stack h ho hr
    rw [hrun, hmeasured.unique hmeasured']

end Turn

/-! ## The loop

The loop reads events until it comes to the closing bracket. By induction on the length of the text it
gets to its end exactly on the texts of a row of events. -/

/-- Events up to the closing bracket. A comma behind an event may be missing. -/
def eventsText : List (List Field) → Language Char
  | []      => blanks * {[']']}
  | e :: es => eventText e * (blanks * ((1 + {[',']}) * eventsText es))

section Loop

variable {stack : Nat → Stack} {p r t : Text} {totals totals' : Totals}

theorem parseEvent_skipWs (p : Text) : parseEvent (skipWs p) = parseEvent p := by
  rw [parseEvent, skipWs_skipWs]
  rfl

theorem runEvents_eq (stack : Nat → Stack) (p : Text) (totals : Totals) :
    runEvents stack p totals =
      match skipWs p with
      | [] => .error (.status 4)
      | c :: _ =>
          if c = ']' then
            .ok totals
          else
            match parseEvent p with
            | none => .error (.status 5)
            | some (event, rest) =>
                measure (stack totals.caseCount) event >>= fun sizes =>
                  runEvents stack (skipComma (skipWs rest)) (totals.add sizes) := by
  rw [← parseEvent_skipWs p, runEvents]
  cases skipWs p with
  | nil => rfl
  | cons c cs =>
      dsimp only
      split
      · rfl
      · cases parseEvent (c :: cs) with
        | none => rfl
        | some result => rfl

theorem runEvents_skipWs (stack : Nat → Stack) (p : Text) (totals : Totals) :
    runEvents stack (skipWs p) totals = runEvents stack p totals := by
  rw [runEvents_eq, runEvents_eq, skipWs_skipWs, parseEvent_skipWs]

/-- What is passed over behind an event. -/
theorem exists_comma (p : Text) : ∃ b c, IsBlank b ∧ (c = [] ∨ c = [',']) ∧
    p = b ++ (c ++ skipComma (skipWs p)) := by
  obtain ⟨b, hb, hp⟩ := exists_blank p
  rw [skipComma]
  cases h : expect ',' (skipWs p) with
  | none => exact ⟨b, [], hb, Or.inl rfl, hp⟩
  | some q =>
      rw [expect_eq_some.mp h] at hp
      exact ⟨b, [','], hb, Or.inr rfl, hp⟩

theorem eventsText_start {es : List (List Field)} (ht : t ∈ eventsText es) :
    ∃ b c u, IsBlank b ∧ isSpace c = false ∧ c ≠ ',' ∧ t = b ++ c :: u := by
  cases es with
  | nil =>
      obtain ⟨b, hb, _, rfl, rfl⟩ := ht
      exact ⟨b, ']', [], hb, by decide, by decide, rfl⟩
  | cons e es =>
      obtain ⟨_, hu, w, -, rfl⟩ := ht
      obtain ⟨b, u, hb, -, rfl⟩ := mem_eventText.mp hu
      exact ⟨b, '{', _, hb, by decide, by decide, List.append_assoc b _ w⟩

/-- The loop goes on where the next event stands, with or without a comma in front of it. -/
theorem runEvents_comma {b c : Text} {es : List (List Field)} (hb : IsBlank b)
    (hc : c = [] ∨ c = [',']) (ht : t ∈ eventsText es) :
    runEvents stack (skipComma (skipWs (b ++ (c ++ (t ++ r))))) totals =
      runEvents stack (t ++ r) totals := by
  rcases hc with rfl | rfl
  · obtain ⟨b', d, u, hb', hspace, hcomma, rfl⟩ := eventsText_start ht
    have hskip : skipWs (b ++ ([] ++ (b' ++ d :: u ++ r))) = d :: (u ++ r) := by
      rw [List.nil_append, List.append_assoc, ← List.append_assoc b]
      apply skipWs_blank _ hspace
      intro x hx
      exact (List.mem_append.mp hx).elim (hb x) (hb' x)
    have hskip' : skipWs (b' ++ d :: u ++ r) = d :: (u ++ r) := by
      rw [List.append_assoc]
      exact skipWs_blank hb' hspace
    rw [hskip, skipComma, expect, if_neg hcomma, ← runEvents_skipWs stack (b' ++ d :: u ++ r),
      hskip']
    rfl
  · have hskip : skipWs (b ++ ([','] ++ (t ++ r))) = ',' :: (t ++ r) := skipWs_blank hb (by decide)
    rw [hskip, skipComma, expect, if_pos rfl]
    rfl

theorem runEvents_sound (h : runEvents stack p totals = .ok totals') :
    ∃ events sizes t r, p = t ++ r ∧ t ∈ eventsText events ∧
      List.Forall₂ (fun e s => Admissible e ∧ Measured e s) events sizes ∧
      totals' = sizes.foldl Totals.add totals := by
  induction hn : p.length using Nat.strongRecOn generalizing p totals with
  | _ n ih =>
    rw [runEvents_eq] at h
    cases hp : skipWs p with
    | nil =>
        rw [hp] at h
        cases h
    | cons c cs =>
        rw [hp] at h
        dsimp only at h
        split at h
        · next hc =>
          cases h
          obtain ⟨b, hb, hsplit⟩ := exists_blank p
          rw [hp, hc] at hsplit
          refine ⟨[], [], b ++ [']'], cs, ?_, ⟨b, hb, [']'], rfl, rfl⟩, List.Forall₂.nil, rfl⟩
          rw [hsplit, List.append_assoc]
          rfl
        · split at h
          · cases h
          · next event rest hevent =>
            cases hsizes : measure (stack totals.caseCount) event with
            | error e =>
                rw [hsizes] at h
                cases h
            | ok sizes =>
                rw [hsizes] at h
                have hlen : (skipComma (skipWs rest)).length < n := by
                  rw [← hn]
                  exact Nat.lt_of_le_of_lt ((skipComma_length_le _).trans (skipWs_length_le rest))
                    (parseEvent_length hevent)
                obtain ⟨events, more, t, r, hrest, ht, hmeasured, rfl⟩ := ih _ hlen h rfl
                obtain ⟨hadmissible, u, hu, rfl⟩ := parseEvent_iff.mp hevent
                obtain ⟨b, c, hb, hc, hsplit⟩ := exists_comma rest
                rw [hrest] at hsplit
                refine ⟨event :: events, sizes :: more, u ++ (b ++ (c ++ t)), r, ?_,
                  ⟨u, hu, _, ⟨b, hb, _, ⟨c, ?_, t, ht, rfl⟩, rfl⟩, rfl⟩,
                  List.Forall₂.cons ⟨hadmissible, (measure_iff hadmissible).mp hsizes⟩ hmeasured,
                  rfl⟩
                · rw [hsplit]
                  simp
                · exact (Language.mem_add _ _ c).mpr hc

theorem runEvents_complete {events : List (List Field)} {sizes : List Totals}
    (ht : t ∈ eventsText events)
    (h : List.Forall₂ (fun e s => Admissible e ∧ Measured e s) events sizes) :
    runEvents stack (t ++ r) totals = .ok (sizes.foldl Totals.add totals) := by
  induction h generalizing t totals with
  | nil =>
      obtain ⟨b, hb, _, rfl, rfl⟩ := ht
      have hskip : skipWs ((b ++ [']']) ++ r) = ']' :: r := by
        rw [List.append_assoc]
        exact skipWs_blank hb (by decide)
      show runEvents stack ((b ++ [']']) ++ r) totals = _
      rw [runEvents_eq, hskip]
      rfl
  | @cons e s es ss hes _ ih =>
      obtain ⟨hadmissible, hmeasured⟩ := hes
      obtain ⟨v, hv, _, ⟨b, hb, _, ⟨c, hc, u, hu, rfl⟩, rfl⟩, rfl⟩ := ht
      dsimp only
      have hevent : parseEvent (v ++ (b ++ (c ++ u)) ++ r) = some (e, b ++ (c ++ (u ++ r))) := by
        rw [parseEvent_iff]
        exact ⟨hadmissible, v, hv, by simp⟩
      obtain ⟨b', w, hb', -, rfl⟩ := mem_eventText.mp hv
      have hskip : ∃ q, skipWs (b' ++ '{' :: (w ++ ['}']) ++ (b ++ (c ++ u)) ++ r) = '{' :: q := by
        rw [List.append_assoc, List.append_assoc]
        exact ⟨_, skipWs_blank hb' (by decide)⟩
      obtain ⟨q, hq⟩ := hskip
      rw [runEvents_eq, hq]
      dsimp only
      rw [if_neg (by decide), hevent]
      dsimp only
      rw [(measure_iff hadmissible).mpr hmeasured]
      show runEvents stack (skipComma (skipWs (b ++ (c ++ (u ++ r))))) (totals.add s) = _
      rw [runEvents_comma hb ((Language.mem_add _ _ c).mp hc) hu]
      exact ih hu

end Loop

/-! ## The benchmark -/

/-- A file with the events in it. -/
structure CaseFile (file : Text) (events : List (List Field)) : Prop where
  short : file.length < fileCapacity - 1
  /-- The events stand behind the first place where the key stands; no NUL is in front of it. -/
  found : ∃ front text rest, file = front ++ (eventsKey ++ (text ++ rest)) ∧
    Char.ofNat 0 ∉ front ∧
    (∀ front', front' ++ eventsKey <+: file → front.length ≤ front'.length) ∧
    text ∈ eventsText events

/-- Where `main` starts to read events. -/
theorem strstr_eventsKey {file events : Text} (h : strstr eventsKey (cString file) = some events) :
    ∃ front tail, file = front ++ (eventsKey ++ tail) ∧ Char.ofNat 0 ∉ front ∧
      (∀ front', front' ++ eventsKey <+: file → front.length ≤ front'.length) ∧
      file.drop ((cString file).length - events.length + eventsKey.length) = tail := by
  obtain ⟨front, hstring, ⟨tail, rfl⟩, hmin⟩ := strstr_iff.mp h
  obtain ⟨more, hfile⟩ := cString_isPrefix file
  rw [hstring, List.append_assoc, List.append_assoc] at hfile
  refine ⟨front, tail ++ more, hfile.symm, ?_, ?_, ?_⟩
  · intro hmem
    apply no_nul_cString file
    rw [hstring]
    exact List.mem_append_left _ hmem
  · intro front' hfront'
    by_contra hlt
    rw [Nat.not_le] at hlt
    apply Nat.not_le.mpr hlt
    apply hmin front'
    -- an earlier place would lie in the string too
    apply List.prefix_of_prefix_length_le hfront' (cString_isPrefix file)
    rw [hstring, List.length_append, List.length_append, List.length_append]
    omega
  · have hstart : (cString file).length - (eventsKey ++ tail).length + eventsKey.length =
        (front ++ eventsKey).length := by
      rw [hstring, List.length_append, List.length_append, List.length_append]
      omega
    rw [hstart, ← hfile, ← List.append_assoc, List.drop_left]

theorem checkTotals_iff {s t : Totals} :
    checkTotals s = .ok t ↔ s = t ∧ t = ⟨41, 4999, 3585, 1085, 922, 618, 495⟩ := by
  rw [checkTotals]
  simp only [require_bind]
  constructor
  · rintro ⟨h₁, h₂, h₃, h₄, h₅, h₆, h₇, h⟩
    cases h
    refine ⟨rfl, ?_⟩
    cases s
    rw [Totals.mk.injEq]
    exact ⟨h₁, h₂, h₃, h₄, h₅, h₆, h₇⟩
  · rintro ⟨rfl, rfl⟩
    exact ⟨rfl, rfl, rfl, rfl, rfl, rfl, rfl, rfl⟩

/-- When the benchmark passes, whatever stood on the stack. It reads a row of events, of which each
has few enough fields with known keys, and says an object whose members, once cast, are in range; and
the lengths of the shortest encodings add up to the totals of the study. Decoding the objects again
never makes a difference. -/
theorem benchmark_iff (stack : Nat → Stack) (file : Text) (totals : Totals) :
    run stack file = .ok totals ↔
      ∃ events sizes, CaseFile file events ∧
        List.Forall₂ (fun e s => Admissible e ∧ Measured e s) events sizes ∧
        totals = sizes.foldl Totals.add {} ∧ totals = ⟨41, 4999, 3585, 1085, 922, 618, 495⟩ := by
  have htake : file.length < fileCapacity - 1 → file.take (fileCapacity - 1) = file :=
    fun h => List.take_of_length_le (Nat.le_of_lt h)
  rw [run]
  constructor
  · intro h
    have hshort : file.length < fileCapacity - 1 := by
      by_contra hlong
      rw [if_pos (List.length_take_of_le (Nat.not_lt.mp hlong))] at h
      cases h
    rw [htake hshort, if_neg (Nat.ne_of_lt hshort)] at h
    cases hfind : strstr eventsKey (cString file) with
    | none =>
        rw [hfind] at h
        cases h
    | some events =>
        rw [hfind] at h
        obtain ⟨front, tail, hfile, hnul, hmin, hdrop⟩ := strstr_eventsKey hfind
        dsimp only at h
        rw [hdrop] at h
        cases hrun : runEvents stack tail {} with
        | error e =>
            rw [hrun] at h
            cases h
        | ok sums =>
            obtain ⟨evs, sizes, text, rest, rfl, htext, hmeasured, hsums⟩ := runEvents_sound hrun
            rw [hrun] at h
            obtain ⟨rfl, htotals⟩ := checkTotals_iff.mp h
            exact ⟨evs, sizes, ⟨hshort, front, text, rest, hfile, hnul, hmin, htext⟩, hmeasured,
              hsums, htotals⟩
  · rintro ⟨events, sizes, ⟨hshort, front, text, rest, hfile, hnul, hmin, htext⟩, hmeasured, rfl,
      htotals⟩
    have hkey : Char.ofNat 0 ∉ front ++ eventsKey := by
      intro hmem
      rcases List.mem_append.mp hmem with hmem | hmem
      · exact hnul hmem
      · exact absurd hmem (by decide +kernel)
    have hstring : cString file = front ++ (eventsKey ++ cString (text ++ rest)) := by
      rw [hfile, ← List.append_assoc, cString_append hkey, List.append_assoc]
    have hfind : strstr eventsKey (cString file) = some (eventsKey ++ cString (text ++ rest)) := by
      rw [strstr_iff]
      refine ⟨front, hstring, List.prefix_append _ _, ?_⟩
      intro front' hfront'
      exact hmin front' (hfront'.trans (cString_isPrefix file))
    have hstart : (cString file).length - (eventsKey ++ cString (text ++ rest)).length +
        eventsKey.length = (front ++ eventsKey).length := by
      rw [hstring, List.length_append, List.length_append, List.length_append]
      omega
    have hdrop : file.drop ((cString file).length - (eventsKey ++ cString (text ++ rest)).length +
        eventsKey.length) = text ++ rest := by
      rw [hstart, hfile, ← List.append_assoc, List.drop_left]
    rw [htake hshort, if_neg (Nat.ne_of_lt hshort), hfind]
    dsimp only
    rw [hdrop, runEvents_complete htext hmeasured, htotals]
    rfl

end Benchmark

end MclWire
