import MclWire.CText

/-!
# The validator of the extension registry

`tools/validate_extension_registry.c`: the scanner, which looks for quoted words in the text of the
registry, and the checks of `main`. Opening the file and printing are left out. The file is what
`fread` delivers, `failures` is the list of the calls of `fail`, and the exit status is 0 if there
were none.

`qsort` is a parameter: C says that it sorts, and nothing about ranges that start alike.
-/

namespace MclWire

open CText

namespace Registry

/-! ## Bounds -/

/-- `MAX_FILE_SIZE` -/
def maxFileSize : Nat := 65536

/-- `MAX_RANGES` -/
def maxRanges : Nat := 32

/-- `MAX_ASSIGNMENTS` -/
def maxAssignments : Nat := 256

/-- `MAX_STR` -/
def maxStr : Nat := 96

/-- `MCL_EXTENSION_ID_MAX` -/
def extensionIdMax : Int := 2147483647

/-! ## The scanner -/

/-- `find_key`; `snprintf` cuts the pattern off at the size of its buffer. -/
def findKey (start key : Text) : Option Text := strstr ((quoted key).take (maxStr - 1)) start

/-- `read_long_after` -/
def readLongAfter (start key : Text) : Option Int := do
  let k ← findKey start key
  let colon ← strchr ':' k
  return strtol colon.tail

/-- `read_string_after`, with the size of `out`. -/
def readStringAfter (start key : Text) (cap : Nat) : Option Text := do
  let k ← findKey start key
  let colon ← strchr ':' k
  let opening ← strchr '"' colon
  let closing ← strchr '"' opening.tail
  let len := opening.length - closing.length - 1
  let len := if len ≥ cap then cap - 1 else len
  return opening.tail.take len

/-- The loop of `array_span`. -/
def spanLoop : Int → Text → Option Text
  | _, []     => none
  | depth, c :: cs =>
      if c = '[' then spanLoop (depth + 1) cs
      else if c = ']' then
        if depth - 1 = 0 then some (c :: cs) else spanLoop (depth - 1) cs
      else spanLoop depth cs

/-- `array_span`: `*begin` and `*end`. -/
def arraySpan (start key : Text) : Option (Text × Text) := do
  let k ← findKey start key
  let p ← strchr '[' k
  let last ← spanLoop 0 p
  return (p, last)

/-! ## The tables -/

/-- `range_t` -/
structure Range where
  first : Int
  last : Int
  policy : Text
  deriving DecidableEq, Repr

/-- `assignment_t` -/
structure Assignment where
  id : Int
  name : Text
  status : Text
  deriving DecidableEq, Repr

/-- `compare_ranges` -/
def compareRanges (a b : Range) : Int :=
  if a.first < b.first then -1 else if a.first > b.first then 1 else 0

/-- What C says of `qsort` with `compare_ranges`. -/
structure Sorts (qsort : List Range → List Range) : Prop where
  perm : ∀ ranges, (qsort ranges).Perm ranges
  sorted : ∀ ranges, (qsort ranges).Pairwise fun a b => compareRanges a b ≤ 0

/-- The calls of `fail`, with what they print. -/
inductive Failure where
  | noRanges
  | rangeIncomplete
  | noRange
  | backwards (r : Range)
  | start (first : Int)
  | overlap (r s : Range)
  | gap (first last : Int)
  | finish (last : Int)
  | zeroPolicy (policy : Text)
  | noName (id : Int)
  | noStatus (id : Int)
  | noSpecification (id : Int)
  | noGuidance (id : Int)
  | unencodable (id : Int)
  | reserved (id : Int)
  | unranged (id : Int)
  | twice (id : Int)
  | assigned (declared counted : Int)
  | deprecated (declared counted : Int)
  | total (declared counted : Int)
  deriving DecidableEq, Repr

/-- `if (c) fail(f);` -/
def failIf (c : Prop) [Decidable c] (f : Failure) : List Failure := if c then [f] else []

/-- The loop over the range table, with the number of entries there is room for. -/
def scanRanges (assignmentsStart : Option Text) : Nat → Text → List Range × List Failure
  | 0, _ => ([], [])
  | n + 1, cursor =>
      match findKey cursor "first".toList with
      | none => ([], [])
      | some entry =>
          -- `entry > assignments_start`
          if assignmentsStart.any fun start => entry.length < start.length then ([], [])
          else
            match readLongAfter entry "first".toList, readLongAfter entry "last".toList with
            | some first, some last =>
                let policy := (readStringAfter entry "policy".toList maxStr).getD []
                let (ranges, failures) := scanRanges assignmentsStart n entry.tail
                (⟨first, last, policy⟩ :: ranges, failures)
            | _, _ => ([], [.rangeIncomplete])

/-- The loop over the assignments up to `*end`, with the number of entries there is room for. -/
def scanAssignments (last : Text) : Nat → Text → List Assignment × List Failure
  | 0, _ => ([], [])
  | n + 1, cursor =>
      match findKey cursor "id".toList with
      | none => ([], [])
      | some entry =>
          -- `entry > assignments_end`
          if entry.length < last.length then ([], [])
          else
            match readLongAfter entry "id".toList with
            | none => ([], [])
            | some id =>
                let name := readStringAfter entry "name".toList maxStr
                let status := readStringAfter entry "status".toList maxStr
                let missing := failIf (name = none) (.noName id) ++
                  failIf (status = none) (.noStatus id) ++
                  failIf (findKey entry "specification".toList = none) (.noSpecification id) ++
                  failIf (findKey entry "criticality_guidance".toList = none) (.noGuidance id)
                let (assignments, failures) := scanAssignments last n entry.tail
                (⟨id, name.getD [], status.getD []⟩ :: assignments, missing ++ failures)

/-! ## The checks -/

/-- Neighbours in the sorted table. -/
def neighbourChecks : List Range → List Failure
  | r :: s :: rs =>
      (if s.first = r.last + 1 then []
        else if s.first ≤ r.last then [.overlap r s]
        else [.gap (r.last + 1) (s.first - 1)]) ++ neighbourChecks (s :: rs)
  | _ => []

/-- The first and the last range of the sorted table. -/
def endChecks (ranges : List Range) : List Failure :=
  (ranges.head?.toList.flatMap fun r => failIf (r.first ≠ 0) (.start r.first)) ++
    neighbourChecks ranges ++
    ranges.getLast?.toList.flatMap fun r => failIf (r.last ≠ extensionIdMax) (.finish r.last)

/-- The checks of the sorted range table. -/
def rangeChecks (ranges : List Range) : List Failure :=
  (ranges.flatMap fun r => failIf (r.last < r.first) (.backwards r)) ++
    endChecks ranges ++
    ranges.flatMap fun r =>
      failIf (r.first ≤ 0 ∧ 0 ≤ r.last ∧ r.policy ≠ "Reserved".toList) (.zeroPolicy r.policy)

/-- The range table: `qsort`, and the checks. -/
def rangeSection (qsort : List Range → List Range) (ranges : List Range) : List Failure :=
  failIf (ranges = []) .noRange ++ rangeChecks (qsort ranges)

/-- The range of an identifier, and its policy. -/
def placement (ranges : List Range) (id : Int) : List Failure :=
  match ranges.find? fun r => r.first ≤ id && id ≤ r.last with
  | none => [.unranged id]
  | some r => failIf (r.policy = "Reserved".toList) (.reserved id)

/-- The checks of the assignments, each against those behind it. -/
def assignmentChecks (ranges : List Range) : List Assignment → List Failure
  | [] => []
  | a :: as =>
      failIf (a.id ≤ 0 ∨ a.id > extensionIdMax) (.unencodable a.id) ++ placement ranges a.id ++
        (as.flatMap fun b => failIf (a.id = b.id) (.twice a.id)) ++ assignmentChecks ranges as

/-- `counted_deprecated` -/
def countedDeprecated (assignments : List Assignment) : Nat :=
  assignments.countP fun a => a.status = "deprecated".toList

/-- `counted_assigned` -/
def countedAssigned (assignments : List Assignment) : Nat :=
  assignments.countP fun a => a.status ≠ "deprecated".toList

/-- The declared counts, 0 where there is none, against the counted ones. -/
def summaryChecks (buf : Text) (assignments : List Assignment) : List Failure :=
  let declaredAssigned := (readLongAfter buf "assigned".toList).getD 0
  let declaredDeprecated := (readLongAfter buf "deprecated".toList).getD 0
  let declaredTotal := (readLongAfter buf "total".toList).getD 0
  failIf (declaredAssigned ≠ countedAssigned assignments)
      (.assigned declaredAssigned (countedAssigned assignments)) ++
    failIf (declaredDeprecated ≠ countedDeprecated assignments)
      (.deprecated declaredDeprecated (countedDeprecated assignments)) ++
    failIf (declaredTotal ≠ assignments.length) (.total declaredTotal assignments.length)

/-- What `g_buf` holds: the file, as far as there is room for it, up to the first NUL. -/
def buffer (file : Text) : Text := (file.take (maxFileSize - 1)).takeWhile (· ≠ Char.ofNat 0)

/-- The failures that `main` reports. -/
def failures (qsort : List Range → List Range) (file : Text) : List Failure :=
  let buf := buffer file
  match findKey buf "ranges".toList with
  | none => [.noRanges]
  | some rangesStart =>
      let (ranges, incomplete) :=
        scanRanges (findKey rangesStart "assignments".toList) maxRanges rangesStart
      let (assignments, missing) :=
        match arraySpan buf "assignments".toList with
        | none => ([], [])
        | some (start, last) => scanAssignments last maxAssignments start
      incomplete ++ rangeSection qsort ranges ++ missing ++
        assignmentChecks (qsort ranges) assignments ++ summaryChecks buf assignments

/-- The exit status of `main` for a file that can be read. -/
def exitStatus (qsort : List Range → List Range) (file : Text) : Nat :=
  if failures qsort file = [] then 0 else 1

end Registry

end MclWire
