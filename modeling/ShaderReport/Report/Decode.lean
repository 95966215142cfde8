import ShaderReport.Json.Reader
import ShaderReport.Report.Encode

/-!
# Reading reports

A report is read member by member. The four members `asset`, `asset-kind`, `build-target` and
`variant-count` are read as soon as they are met, so a wrong one is noticed before anything that
follows it. All other members are kept until the object is closed; out of them come first the
status, then the analysis. Members that no part asks for do not matter. A member that is asked for
must be there exactly once.
-/

namespace ShaderReport

open Json (Value Reader ReadError)

/-! ### Parts out of values -/

/-- The text that a value holds. -/
def stringOf : Value → Except ReadError String
  | .string s => .ok s
  | _ => .error .mismatch

/-- The count that a value holds. -/
def Count.ofJson : Value → Except ReadError Count
  | .number (.whole n) =>
    if n < 0 then .error .mismatch
    else match Count.ofNat? n.toNat with
      | some c => .ok c
      | none => .error .mismatch
  | _ => .error .mismatch

/-- The list that an array holds. -/
def listOf {α : Type} (item : Value → Except ReadError α) : Value → Except ReadError (List α)
  | .array vs => vs.mapM item
  | _ => .error .mismatch

/-- The value of the only member with a name. -/
def theMember (name : String) (members : List (String × Value)) : Except ReadError Value :=
  match members.filter (·.1 = name) with
  | [(_, v)] => .ok v
  | _ => .error .mismatch

/-- The keyword set that a value holds: an object, or an array of its two parts. -/
def KeywordSet.ofJson : Value → Except ReadError KeywordSet
  | .object ms => do
    let directive ← stringOf (← theMember "directive" ms)
    let keywords ← listOf stringOf (← theMember "keywords" ms)
    .ok ⟨directive, keywords⟩
  | .array [directive, keywords] => do
    .ok ⟨← stringOf directive, ← listOf stringOf keywords⟩
  | _ => .error .mismatch

/-- The analysis that the members of an object hold. -/
def Analysis.ofMembers (ms : List (String × Value)) : Except ReadError Analysis := do
  let lineCount ← Count.ofJson (← theMember "line-count" ms)
  let passes ← Count.ofJson (← theMember "passes" ms)
  let entryPoints ← listOf stringOf (← theMember "entry-points" ms)
  let kernels ← listOf stringOf (← theMember "kernels" ms)
  let keywordSets ← listOf KeywordSet.ofJson (← theMember "keyword-sets" ms)
  let materialKeywords ← listOf stringOf (← theMember "material-keywords" ms)
  let textureSlots ← Count.ofJson (← theMember "texture-slots" ms)
  .ok ⟨lineCount, passes, entryPoints, kernels, keywordSets, materialKeywords, textureSlots⟩

/-- The analysis that a value holds: an object, or an array of its seven parts. -/
def Analysis.ofJson : Value → Except ReadError Analysis
  | .object ms => Analysis.ofMembers ms
  | .array [lineCount, passes, entryPoints, kernels, keywordSets, materialKeywords, textureSlots] =>
    do
      .ok ⟨← Count.ofJson lineCount, ← Count.ofJson passes, ← listOf stringOf entryPoints,
        ← listOf stringOf kernels, ← listOf KeywordSet.ofJson keywordSets,
        ← listOf stringOf materialKeywords, ← Count.ofJson textureSlots⟩
  | _ => .error .mismatch

/-- The status that the members of an object hold. It is told by its word or by its number. -/
def Status.ofMembers (ms : List (String × Value)) : Except ReadError Status := do
  let tag ← theMember "status" ms
  if tag = .string "succeeded" ∨ tag = .ofNat 0 then .ok .succeeded
  else if tag = .string "failed" ∨ tag = .ofNat 1 then
    .ok (.failed (← stringOf (← theMember "error" ms)))
  else .error .mismatch

/-- The kind of assets that a word stands for. -/
def AssetKind.ofTag (tag : String) : Except ReadError AssetKind :=
  match [AssetKind.shader, .computeShader, .material].find? (·.tag = tag) with
  | some kind => .ok kind
  | none => .error .mismatch

/-! ### Parts out of the text -/

namespace Report

/-- Reads a value of the one form that is asked for; any other is no match, unless it is malformed
itself. An array or an object is no match without a look into it. -/
def expecting {α : Type} (accept : Value → Except ReadError α) : Reader α := fun cs =>
  match Json.skipBlanks cs with
  | '[' :: _ => .error .mismatch
  | '\x7b' :: _ => .error .mismatch
  | rest => do
    let (v, rest) ← Json.scalar rest
    .ok (← accept v, rest)

/-- Reads the word for a kind of assets. Nothing but a text may stand in its place. -/
def readWord : Reader AssetKind := fun cs =>
  match Json.skipBlanks cs with
  | '"' :: rest => do
    let (tag, rest) ← Json.text rest
    .ok (← AssetKind.ofTag tag, rest)
  | rest => Json.refuse rest

/-- Reads a kind of assets: its word, or an object whose only member has that name and the value
`null`. -/
def readKind : Reader AssetKind := fun cs =>
  match Json.skipBlanks cs with
  | '\x7b' :: rest => do
    let (kind, rest) ← readWord rest
    let ((), rest) ← Json.colon rest
    let ((), rest) ← expecting (fun v => if v = .null then .ok () else .error .mismatch) rest
    match Json.skipBlanks rest with
    | '\x7d' :: rest => .ok (kind, rest)
    | rest => Json.refuse rest
  | rest => readWord rest

/-- The members of a report met so far. -/
structure Draft where
  asset : Option String
  assetKind : Option AssetKind
  target : Option String
  variantCount : Option Count
  others : List (String × Value)

/-- No members yet. -/
def Draft.empty : Draft :=
  ⟨none, none, none, none, []⟩

/-- Reads one member into its place in a draft, which must be free. -/
def readInto {α : Type} (place : Option α) (read : Reader α) (put : α → Draft) : Reader Draft :=
  fun cs =>
    match place with
    | some _ => .error .mismatch
    | none => do
      let ((), rest) ← Json.colon cs
      let (a, rest) ← read rest
      .ok (put a, rest)

/-- Reads what follows the name of a member. -/
def readMember (d : Draft) (name : String) : Reader Draft :=
  if name = "asset" then
    readInto d.asset (expecting stringOf) fun s => { d with asset := some s }
  else if name = "asset-kind" then
    readInto d.assetKind readKind fun k => { d with assetKind := some k }
  else if name = "build-target" then
    readInto d.target (expecting stringOf) fun s => { d with target := some s }
  else if name = "variant-count" then
    readInto d.variantCount (expecting Count.ofJson) fun n => { d with variantCount := some n }
  else
    readInto (none : Option Value) (Json.value (Json.maxLevels - 1)) fun v =>
      { d with others := d.others ++ [(name, v)] }

/-- Reads the members from here on, at most the given number of them, and the closing brace. -/
def readMembers : Nat → Bool → Draft → Reader Draft
  | 0, _, _, _ => .error .malformed
  | n + 1, first, d, cs => do
    let (name, rest) ← Json.nextName first cs
    match name with
    | none => .ok (d, rest)
    | some name =>
      let (d, rest) ← readMember d name rest
      readMembers n false d rest

/-- The report that the members of an object make. -/
def ofDraft (d : Draft) : Except ReadError Report :=
  match d.asset, d.assetKind, d.target, d.variantCount with
  | some asset, some kind, some target, some variantCount => do
    let status ← Status.ofMembers d.others
    let analysis ← Analysis.ofMembers d.others
    .ok ⟨.ofString asset, kind, ⟨target⟩, status, variantCount, analysis⟩
  | _, _, _, _ => .error .mismatch

/-- Reads a report. -/
def read : Reader Report := fun cs =>
  match Json.skipBlanks cs with
  | '\x7b' :: rest => do
    let (d, rest) ← readMembers (rest.length + 1) true .empty rest
    .ok (← ofDraft d, rest)
  | rest => expecting (fun _ => .error .mismatch) rest

/-- The report that a text holds. -/
def parse (s : String) : Except ReadError Report := do
  let (r, rest) ← read s.toList
  Json.finish rest
  .ok r

end Report

end ShaderReport
