import Lemmata.Report.Basic
import Lemmata.Theory.File

/-!
# The command line

    FILE [--config FILE] [--json] [closure | equivalence]
    help [closure | equivalence | help]

The first file holds the theory and the second one the selection of catalogs. Options may stand on
both sides of the word that names a part of the report; each may be given once on a side, and what
is given after the word counts. Two dashes end the options, so that a file may have any name.

Arguments are read from left to right, and the first one that cannot be read, or an option that asks
for the version or for help, settles the matter. The word `help` takes the rest of the line for the
name of what help is wanted on: at most one word of the command, spelled exactly.
-/

namespace Lemmata.CommandLine

/-! ## Arguments -/

/-- The shape of an argument. -/
inductive Argument where
  /-- Two dashes. -/
  | endOfOptions
  /-- An option by name, perhaps with a value after an equals sign. -/
  | long (name : String) (value : Option String)
  /-- One dash and letters, of which this is the first. -/
  | short (letter : Char)
  | word (text : String)

/-- What stands before and after the first equals sign. -/
def splitValue (cs : List Char) : String × Option String :=
  let name := String.ofList (cs.takeWhile (· ≠ '='))
  match cs.dropWhile (· ≠ '=') with
  | [] => (name, none)
  | _ :: value => (name, some (String.ofList value))

/-- The shape of an argument. A single dash is a word. -/
def Argument.ofText (text : String) : Argument :=
  match text.toList with
  | ['-', '-'] => .endOfOptions
  | '-' :: '-' :: cs =>
    let (name, value) := splitValue cs
    .long name value
  | '-' :: c :: _ => .short c
  | _ => .word text

/-- Options that may stand anywhere. -/
structure Options where
  config : Option String := none
  json : Bool := false

/-- The options from both sides of the word for a part of the report. -/
def Options.merge (before after : Options) : Options :=
  ⟨after.config.or before.config, after.json || before.json⟩

/-! ## Requests -/

/-- What is asked for. -/
inductive Request where
  | report (file : String) (options : Options) (part : Option Report.Part)
  | version
  | help

/-- What settles the reading of arguments early: a request, or none if they make no sense. -/
abbrev Verdict : Type :=
  Option Request

/-- What the word `help` asks about. -/
inductive Topic where
  /-- The command as a whole. -/
  | command
  /-- One of the words that the command knows. -/
  | word

/-- The words that the command knows. -/
def knownWords : List String :=
  ["closure", "equivalence", "help"]

/-- The topic after one more argument. A word of the command has no words of its own. -/
def Topic.narrow? : Topic → String → Option Topic
  | command, text => if text ∈ knownWords then some word else none
  | word, _ => none

/-- The reading of arguments in progress. -/
structure Reading where
  file : Option String := none
  /-- The options before the word for a part of the report, once it has come. -/
  earlier : Options := {}
  /-- The options on the current side of that word. -/
  options : Options := {}
  part : Option Report.Part := none
  /-- Whether the value of an option is due. -/
  valueDue : Bool := false
  /-- Whether two dashes have ended the options. -/
  ended : Bool := false
  /-- What help is wanted on, once the word `help` has come. -/
  topic : Option Topic := none

namespace Reading

/-- Takes the name of the file with the theory. -/
def setFile (r : Reading) (file : String) : Except Verdict Reading :=
  if r.file.isNone ∧ r.part.isNone ∧ file ≠ "" then .ok { r with file := file }
  else .error none

/-- Takes the name of the file with the selection. -/
def setConfig (r : Reading) (file : String) : Except Verdict Reading :=
  if r.options.config.isNone ∧ file ≠ "" then
    .ok { r with options := { r.options with config := file }, valueDue := false }
  else .error none

/-- Takes the wish for JSON. -/
def setJson (r : Reading) : Except Verdict Reading :=
  if r.options.json then .error none
  else .ok { r with options := { r.options with json := true } }

/-- Takes a word where options may stand. -/
def word (r : Reading) (text : String) : Except Verdict Reading :=
  if r.part.isSome then .error none
  else
    match text with
    | "help" => .ok { r with topic := some .command }
    | "closure" => .ok { r with part := some .closure, earlier := r.options, options := {} }
    | "equivalence" =>
      .ok { r with part := some .equivalence, earlier := r.options, options := {} }
    | file => r.setFile file

/-- Asks for the version, which goes before the word for a part of the report. -/
def askVersion (r : Reading) : Except Verdict Reading :=
  .error (if r.part.isNone then some .version else none)

/-- Takes an argument after the word `help`. -/
def narrow (r : Reading) (topic : Topic) (text : String) : Except Verdict Reading :=
  match topic.narrow? text with
  | some t => .ok { r with topic := some t }
  | none => .error none

/-- Takes an argument that is not about the word `help`. -/
def argument (r : Reading) (text : String) : Except Verdict Reading :=
  if r.ended then r.setFile text
  else
    match r.valueDue, Argument.ofText text with
    | true, .word file => r.setConfig file
    | true, _ => .error none
    | false, .endOfOptions => .ok { r with ended := true }
    | false, .long "json" none => r.setJson
    | false, .long "config" none => .ok { r with valueDue := true }
    | false, .long "config" (some file) => r.setConfig file
    | false, .long "version" none => r.askVersion
    | false, .long "help" none => .error (some .help)
    | false, .long _ _ => .error none
    | false, .short 'V' => r.askVersion
    | false, .short 'h' => .error (some .help)
    | false, .short _ => .error none
    | false, .word text => r.word text

/-- Takes an argument. -/
def step (r : Reading) (text : String) : Except Verdict Reading :=
  match r.topic with
  | some topic => r.narrow topic text
  | none => r.argument text

/-- The arguments have ended. -/
def finish (r : Reading) : Verdict :=
  if r.topic.isSome then some .help
  else if r.valueDue then none
  else r.file.map fun f => .report f (r.earlier.merge r.options) r.part

end Reading

/-- What the arguments ask for, if they make sense. -/
def request? (args : List String) : Option Request :=
  match args.foldlM Reading.step {} with
  | .ok r => r.finish
  | .error verdict => verdict

/-! ## Responses -/

/-- What a run leaves behind. -/
structure Response where
  exitCode : Nat
  output : String

/-- How the command is used. -/
def usage : String :=
  "Usage: catalog FILE [--config FILE] [--json] [closure|equivalence]\n"

/-- The name of the command and its version. -/
def version : String :=
  "catalog 0.1.0\n"

/-- The response to a file that could not be loaded. -/
def loadFailure (what message : String) : Response :=
  ⟨1, "Error loading " ++ what ++ ": " ++ message ++ "\n"⟩

/-- The report on a theory. -/
def reportOn (T : Theory) (selection : Selection) (json : Bool) (part : Option Report.Part) :
    Response :=
  match Report.ofCatalogs? T.signature (.ofTheory T selection) part with
  | none => ⟨101, ""⟩
  | some r => ⟨0, if json then r.json else r.text⟩

section

variable {m : Type → Type} [Monad m]

/-- Where the selection of catalogs comes from: a file, or the default. -/
def loadSelection (contents : String → m (Except String String)) :
    Option String → m (Except Response Selection)
  | none => pure (.ok {})
  | some path => do
    return (Selection.load (← contents path)).mapError fun e =>
      loadFailure ("config " ++ path) e.message

/-- Carries out a request. The selection is loaded before the theory. `contents` yields the text of a
file, or why it cannot be opened. -/
def respond (contents : String → m (Except String String)) : Request → m Response
  | .version => pure ⟨0, version⟩
  | .help => pure ⟨0, usage⟩
  | .report file options part => do
    match ← loadSelection contents options.config with
    | .error r => return r
    | .ok selection =>
      match Theory.load (← contents file) with
      | .error e => return loadFailure file e.message
      | .ok T => return reportOn T selection options.json part

/-- Carries out what the arguments ask for. -/
def run (contents : String → m (Except String String)) (args : List String) : m Response :=
  match request? args with
  | some r => respond contents r
  | none => pure ⟨2, ""⟩

end

end Lemmata.CommandLine
