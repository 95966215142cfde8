import ShaderReport.Config.Options
import ShaderReport.Text.Digit

/-!
# The command line

A command line names a command and gives its options and assets, in any order. A word that starts
with a dash is an option; after the word `--` every word is an asset. The value of an option stands
in the same word, after `=`, or in the next one.

The words are taken one by one, and the first mistake counts. A value in a word of its own, and an
asset, are looked at when the next option or the end of the line is reached, so a mistake in the
name of that option comes before one in the value.
-/

namespace ShaderReport

/-- What a command line asks for. -/
inductive Invocation where
  | analyze (config : Option Path) (options : Options) (assets : List Path)
  | showPlatforms (config : Option Path)
  | showReportsDir
  deriving DecidableEq, Repr

/-- Why a command line is not an invocation. -/
inductive UsageError where
  | helpAsked
  | versionAsked
  | commandMissing
  | unknownCommand
  | unknownArgument
  | assetsMissing
  | valueMissing
  | valueUnneeded
  | valueNotText
  | valueRefused
  | repeated
  deriving DecidableEq, Repr

namespace CommandLine

/-! ### Words -/

/-- A word by its form. The name of an option is known if it is text. -/
inductive Word where
  | endOfOptions
  | long (name : Option String) (value : Option Bytes)
  | short (letter : UInt8) (rest : Bytes)
  | plain (bytes : Bytes)
  deriving DecidableEq, Repr

/-- The byte `-`. -/
def dash : UInt8 := 0x2D

/-- The byte `=`. -/
def equals : UInt8 := 0x3D

/-- What follows the first equals sign, if there is one. -/
def afterEquals (bs : Bytes) : Option Bytes :=
  match bs.dropWhile (· ≠ equals) with
  | [] => none
  | _ :: value => some value

/-- The form of a word. -/
def Word.ofBytes (bs : Bytes) : Word :=
  match bs with
  | a :: b :: rest =>
    if a = dash ∧ b = dash then
      if rest.isEmpty then .endOfOptions
      else .long (Utf8.decode? (rest.takeWhile (· ≠ equals))) (afterEquals rest)
    else if a = dash then .short b rest
    else .plain bs
  | bs => .plain bs

/-- The value that stands in the same word as a short option: what follows it, less one equals
sign. -/
def attached (rest : Bytes) : Option Bytes :=
  match rest with
  | [] => none
  | b :: bs => some (if b = equals then bs else rest)

/-! ### Options and assets -/

/-- The options with a value. -/
inductive OptionName where
  | config
  | platform
  | outputDir
  | linesPerTick
  deriving DecidableEq, Repr

/-- The name of an option in a command line. -/
def OptionName.long : OptionName → String
  | .config => "config"
  | .platform => "platform"
  | .outputDir => "output-dir"
  | .linesPerTick => "lines-per-tick"

/-- The options and the assets taken so far. -/
structure Taken where
  config : Option Path
  target : Option BuildTarget
  outputDir : Option Path
  pace : Option Pace
  assets : List Path
  deriving DecidableEq, Repr

/-- Nothing taken yet. -/
def Taken.none : Taken :=
  ⟨.none, .none, .none, .none, []⟩

/-- The path that a value gives. -/
def readPath (value : Bytes) : Except UsageError Path :=
  if value.isEmpty then .error .valueMissing else .ok ⟨value⟩

/-- The text that a value gives. -/
def readText (value : Bytes) : Except UsageError String :=
  match Utf8.decode? value with
  | some s => .ok s
  | none => .error .valueNotText

/-- The number that a text of decimal digits gives, after a plus sign or without one. -/
def readNumber? (cs : List Char) : Option Nat :=
  let digits := match cs with
    | '+' :: ds => ds
    | ds => ds
  if digits.isEmpty || !digits.all Char.isDigit then none else some (Text.numberOf 10 digits)

/-- The pace that a value gives. -/
def readPace (value : Bytes) : Except UsageError Pace := do
  let text ← readText value
  match (readNumber? text.toList).bind Pace.ofNat? with
  | some pace => .ok pace
  | none => .error .valueRefused

/-- Takes the value of an option, which must not have been taken before. -/
def Taken.set (t : Taken) (name : OptionName) (value : Bytes) : Except UsageError Taken :=
  match name with
  | .config =>
    if t.config.isSome then .error .repeated
    else (readPath value).map fun p => { t with config := some p }
  | .platform =>
    if t.target.isSome then .error .repeated
    else (readText value).map fun s => { t with target := some ⟨s⟩ }
  | .outputDir =>
    if t.outputDir.isSome then .error .repeated
    else (readPath value).map fun p => { t with outputDir := some p }
  | .linesPerTick =>
    if t.pace.isSome then .error .repeated
    else (readPace value).map fun p => { t with pace := some p }

/-- What is waiting to be looked at: an option without its value, an option with it, or assets. -/
inductive Pending where
  | nothing
  | option (name : OptionName)
  | value (name : OptionName) (bytes : Bytes)
  | assets (list : List Bytes)
  deriving DecidableEq, Repr

/-- Looks at what is waiting. -/
def settle (t : Taken) : Pending → Except UsageError Taken
  | .nothing => .ok t
  | .option _ => .error .valueMissing
  | .value name bytes => t.set name bytes
  | .assets list => (list.mapM readPath).map fun ps => { t with assets := t.assets ++ ps }

/-- Which words a command takes. -/
structure Form where
  options : List OptionName
  assets : Bool
  deriving DecidableEq, Repr

/-- The option of a command with a long name. -/
def Form.option? (f : Form) (name : String) : Option OptionName :=
  f.options.find? (·.long = name)

/-- Takes an option with the value in its word, or waits for its value. -/
def takeOption (t : Taken) (p : Pending) (name : OptionName) (value : Option Bytes) :
    Except UsageError (Taken × Pending) := do
  let t ← settle t p
  match value with
  | some value => .ok (← t.set name value, .nothing)
  | none => .ok (t, .option name)

/-- Takes a word that is an asset. -/
def takeAsset (f : Form) (t : Taken) (p : Pending) (word : Bytes) :
    Except UsageError (Taken × Pending) :=
  if f.assets then
    match p with
    | .assets list => .ok (t, .assets (list ++ [word]))
    | p => (settle t p).map fun t => (t, .assets [word])
  else .error .unknownArgument

/-- Takes a word in front of `--`. -/
def takeWord (f : Form) (t : Taken) (p : Pending) (word : Bytes) :
    Except UsageError (Taken × Pending) :=
  match Word.ofBytes word with
  | .endOfOptions => .ok (t, p)
  | .long (some "help") value =>
    if value.isSome then .error .valueUnneeded
    else do
      discard (settle t p)
      .error .helpAsked
  | .long name value =>
    match name.bind f.option? with
    | some name => takeOption t p name value
    | none => .error .unknownArgument
  | .short letter rest =>
    if letter = 'h'.toUInt8 then do
      discard (settle t p)
      .error .helpAsked
    else if letter = 'p'.toUInt8 ∧ OptionName.platform ∈ f.options then
      takeOption t p .platform (attached rest)
    else .error .unknownArgument
  | .plain bytes =>
    match p with
    | .option name => .ok (t, .value name bytes)
    | p => takeAsset f t p bytes

/-- Takes the words of a command. -/
def takeWords (f : Form) (onlyAssets : Bool) (t : Taken) (p : Pending) :
    List Bytes → Except UsageError Taken
  | [] => settle t p
  | word :: words =>
    if onlyAssets then do
      let (t, p) ← takeAsset f t p word
      takeWords f true t p words
    else do
      let (t, p) ← takeWord f t p word
      takeWords f (Word.ofBytes word = .endOfOptions) t p words

/-- Everything that the words of a command give. -/
def take (f : Form) (words : List Bytes) : Except UsageError Taken :=
  takeWords f false .none .nothing words

/-! ### Commands -/

/-- What the words after `analyze` ask for. -/
def parseAnalyze (words : List Bytes) : Except UsageError Invocation := do
  let t ← take ⟨[.config, .platform, .outputDir, .linesPerTick], true⟩ words
  if t.assets.isEmpty then .error .assetsMissing
  else
    let d := Options.default
    .ok (.analyze t.config ⟨t.target.getD d.target, t.outputDir, t.pace.getD d.pace⟩ t.assets)

/-- What the words after `show platforms` ask for. -/
def parseShowPlatforms (words : List Bytes) : Except UsageError Invocation := do
  let t ← take ⟨[.config], false⟩ words
  .ok (.showPlatforms t.config)

/-- What the words after `show reports-dir` ask for. -/
def parseShowReportsDir (words : List Bytes) : Except UsageError Invocation := do
  let _ ← take ⟨[], false⟩ words
  .ok .showReportsDir

/-- A tree of commands: a command with parts, or one with words of its own. -/
inductive Command where
  | group (version : Bool) (parts : List (String × Command))
  | leaf (parse : List Bytes → Except UsageError Invocation)

/-- The commands of `show`. -/
def showCommand : Command :=
  .group false [("reports-dir", .leaf parseShowReportsDir),
    ("platforms", .leaf parseShowPlatforms)]

/-- The whole tree of commands. -/
def program : Command :=
  .group true [("analyze", .leaf parseAnalyze), ("show", showCommand)]

/-- The part of a group that a word names. -/
def part? (parts : List (String × Command)) (word : Bytes) : Option Command :=
  (Utf8.decode? word).bind fun name => parts.lookup name

/-- Whether words lead from a command to one of its parts, step by step. The part `help` of a group
has no parts. -/
def leadsToHelp (words : List Bytes) (command : Command) : Bool :=
  match words, command with
  | [], _ => true
  | _ :: _, .leaf _ => false
  | word :: words, .group _ parts =>
    match part? parts word with
    | some command => leadsToHelp words command
    | none => word == Utf8.encode "help" && words.isEmpty

/-- What a word does that follows `--` in a group or that names none of its parts. -/
def refuseWord (onlyWords : Bool) (parts : List (String × Command)) (word : Bytes) : UsageError :=
  if onlyWords && ((part? parts word).isSome || word == Utf8.encode "help") then .unknownArgument
  else .unknownCommand

/-- What a command line asks of a command. -/
def parseCommand (command : Command) (words : List Bytes) : Except UsageError Invocation :=
  match command, words with
  | .leaf parse, words => parse words
  | .group _ _, [] => .error .commandMissing
  | .group version parts, word :: words =>
    match part? parts word with
    | some command => parseCommand command words
    | none =>
      if word = Utf8.encode "help" then
        .error (if leadsToHelp words (.group version parts) then .helpAsked else .unknownCommand)
      else
        match Word.ofBytes word with
        | .endOfOptions =>
          match words with
          | [] => .error .commandMissing
          | word :: _ => .error (refuseWord true parts word)
        | .long (some "help") value =>
          .error (if value.isSome then .valueUnneeded else .helpAsked)
        | .long (some "version") value =>
          .error (if !version then .unknownArgument
            else if value.isSome then .valueUnneeded else .versionAsked)
        | .long _ _ => .error .unknownArgument
        | .short letter _ =>
          .error (if letter = 'h'.toUInt8 then .helpAsked
            else if version ∧ letter = 'V'.toUInt8 then .versionAsked else .unknownArgument)
        | .plain bytes => .error (refuseWord false parts bytes)
  termination_by words.length

/-- What a command line asks for. -/
def parse (words : List Bytes) : Except UsageError Invocation :=
  parseCommand program words

end CommandLine

end ShaderReport
