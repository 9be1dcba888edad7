import TypeFlow.Report.Document
import TypeFlow.Report.Text
import TypeFlow.Watch

/-!
# The command line

Two commands take the file with the world and an entry point: `analyze` runs
once, `watch` keeps the analysis. Options may stand anywhere behind the
command; `-v` also before it.
-/

namespace TypeFlow

structure Options where
  verbose : Nat := 0
  paths : List String := []
  entry? : Option String := none
  config? : Option String := none
  precise : Bool := false
  json : Bool := false
  deriving DecidableEq, Repr

structure Command where
  watch : Bool
  model : String
  entry : String
  config? : Option String
  precise : Bool
  json : Bool
  verbose : Bool
  deriving DecidableEq, Repr

structure Outcome where
  code : Nat
  output : String
  deriving DecidableEq, Repr

namespace Options

def setEntry (o : Options) (value : String) : Option Options :=
  if o.entry?.isSome then none else some { o with entry? := some value }

def setConfig (o : Options) (value : String) : Option Options :=
  if o.config?.isSome then none else some { o with config? := some value }

def setPrecise (o : Options) : Option Options :=
  if o.precise then none else some { o with precise := true }

def setJson (o : Options) : Option Options :=
  if o.json then none else some { o with json := true }

/-- The effect of an option that takes a value, by its name. -/
def valued? : String → Option (Options → String → Option Options)
  | "entry" => some setEntry
  | "config" => some setConfig
  | "e" => some setEntry
  | "c" => some setConfig
  | _ => none

/-- The effect of an option without a value, by its name. -/
def plain? : String → Option (Options → Option Options)
  | "verbose" => some fun o => some { o with verbose := o.verbose + 1 }
  | "v" => some fun o => some { o with verbose := o.verbose + 1 }
  | "precise" => some setPrecise
  | "json" => some setJson
  | _ => none

/-- What is left to read after an option: an effect that waits for the next
argument as its value, or nothing. -/
inductive Pending where
  | none
  | value (set : Options → String → Option Options)

def readShort (o : Options) : List Char → Option (Options × Pending)
  | [] => some (o, .none)
  | c :: rest =>
    match valued? (String.singleton c) with
    | some set =>
      match rest with
      | [] => some (o, .value set)
      | '=' :: value => (set o (String.ofList value)).map fun o => (o, .none)
      | value => (set o (String.ofList value)).map fun o => (o, .none)
    | none =>
      match plain? (String.singleton c) with
      | some set =>
        match set o with
        | some o => readShort o rest
        | none => none
      | none => none

/-- Reads a long option, with its value behind an equals sign if it has one. -/
def readLong (o : Options) (cs : List Char) : Option (Options × Pending) :=
  let name := String.ofList (cs.takeWhile (· ≠ '='))
  match valued? name, cs.dropWhile (· ≠ '=') with
  | some set, _ :: value =>
    if name.length = 1 then none else (set o (String.ofList value)).map fun o => (o, .none)
  | some set, [] => if name.length = 1 then none else some (o, .value set)
  | none, [] =>
    if name.length = 1 then none
    else match plain? name with
      | some set => (set o).map fun o => (o, .none)
      | none => none
  | none, _ :: _ => none

def readArgs (o : Options) : Pending → List String → Option Options
  | .none, [] => some o
  | .value _, [] => none
  | .value set, arg :: rest =>
    match set o arg with
    | some o => readArgs o .none rest
    | none => none
  | .none, arg :: rest =>
    match arg.toList with
    | ['-', '-'] => some { o with paths := o.paths ++ rest }
    | '-' :: '-' :: name =>
      match readLong o name with
      | some (o, pending) => readArgs o pending rest
      | none => none
    | '-' :: c :: letters =>
      match readShort o (c :: letters) with
      | some (o, pending) => readArgs o pending rest
      | none => none
    | _ => readArgs { o with paths := o.paths ++ [arg] } .none rest

end Options

namespace Command

/-- Reads the arguments up to the command: how verbose it is to be, which
command, and what follows. -/
def split (verbose : Nat) : List String → Option (Nat × String × List String)
  | [] => none
  | arg :: rest =>
    if arg = "--verbose" then split (verbose + 1) rest
    else match arg.toList with
      | '-' :: 'v' :: letters => if letters.all (· = 'v') then split (verbose + letters.length + 1) rest else none
      | '-' :: _ => none
      | _ => some (verbose, arg, rest)

/-- Reads a command; none when the arguments are not well formed. -/
def parse? (args : List String) : Option Command := do
  let (verbose, name, rest) ← split 0 args
  let watch ← if name = "analyze" then some false else if name = "watch" then some true else none
  let o ← Options.readArgs { verbose } .none rest
  match o.paths, o.entry? with
  | [model], some entry =>
    some { watch, model, entry, config? := o.config?, precise := o.precise, json := o.json,
           verbose := o.verbose ≠ 0 }
  | _, _ => none

/-- What the analysis needs to know, from the arguments and the files. -/
def request (c : Command) (files : String → FileContent) : Except RunError Request :=
  match QualifiedMethod.parse c.entry with
  | .error e => .error (.malformed e)
  | .ok entry =>
    match loadSettings (c.config?.map files) c.precise with
    | .error e => .error (.load e)
    | .ok settings => .ok ⟨entry, settings⟩

def printed (c : Command) (r : Report) : String :=
  if c.json then r.toJson.pretty ++ "\n" else r.render c.verbose false

def firstReport (c : Command) (files : String → FileContent) : Except RunError Report := do
  if (files c.model).isNone then throw (.load .notFound)
  let request ← c.request files
  let result ← request.analyzeFile (files c.model)
  pure result.2.2

/-- Runs a command up to its first report; whatever fails leaves no output. -/
def run (c : Command) (files : String → FileContent) : Outcome :=
  match c.firstReport files with
  | .ok report => ⟨0, c.printed report⟩
  | .error _ => ⟨1, ""⟩

end Command

/-- Runs the program with its arguments, where `files` gives the content of
each file that exists. Arguments that are not well formed give code 2. -/
def runProgram (files : String → FileContent) (args : List String) : Outcome :=
  match Command.parse? args with
  | some c => c.run files
  | none => ⟨2, ""⟩

end TypeFlow
