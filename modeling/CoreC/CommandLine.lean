import CoreC.Json.Reader
import CoreC.Machine.Run
import CoreC.Program.Encoding

/-! # The command line

One argument names the file of a program in JSON; options choose the settings of the
run. Thread settings come from variables of the environment.
-/

namespace CoreC

structure Invocation where
  path : String
  settings : Settings

/-- Why a command line is not carried out. -/
inductive Refusal where
  /-- The arguments do not fit together. -/
  | usage
  | variable (fault : Fault)
  deriving DecidableEq

structure Outcome where
  stdout : String
  stderr : String
  exitCode : Nat
  deriving DecidableEq

namespace CommandLine

/-- Arguments sorted into positional ones and options, both in order. -/
structure Arguments where
  positional : List String
  options : List (String × String)

/-- An option with its value in one argument, or the name of an option. -/
def splitOption (text : String) : String × Option String :=
  match text.toList.span (· != '=') with
  | (name, _ :: value) => (String.ofList name, some (String.ofList value))
  | (name, []) => (String.ofList name, none)

/-- Whether an argument cannot be a value because it starts like an option. -/
def looksLikeOption (text : String) : Bool := text.startsWith "-" && text != "-"

/-- Sorts arguments. Behind `--` all are positional; `none` if an option lacks its
value. -/
def sort : List String → Option Arguments
  | [] => some ⟨[], []⟩
  | "--" :: rest => some ⟨rest, []⟩
  | arg :: rest =>
      if arg.startsWith "--" then
        match splitOption arg, rest with
        | (name, some value), rest =>
            (sort rest).map fun a => { a with options := (name, value) :: a.options }
        | (_, none), [] => none
        | (name, none), value :: rest =>
            if looksLikeOption value then none
            else (sort rest).map fun a => { a with options := (name, value) :: a.options }
      else if looksLikeOption arg then none
      else (sort rest).map fun a => { a with positional := arg :: a.positional }

/-- The settings that options stand for. -/
def optionKeys : List (String × String) :=
  [("--interpretation", "interpretation"), ("--store-update", "store_update"),
    ("--kont-alloc", "kont_alloc"), ("--frame-alloc", "frame_alloc"),
    ("--heap-alloc", "heap_alloc"), ("--limits", "limits"), ("--max-steps", "max_steps")]

def applyOption (settings : Settings) (name value : String) : Option Settings := do
  let key ← optionKeys.lookup name
  (settings.assign key value).toOption

/-- The invocation that arguments spell: one path, and each option at most once. -/
def parse? (args : List String) : Option Invocation := do
  let sorted ← sort args
  match sorted.positional with
  | [path] =>
      if path = "" ∨ ¬(sorted.options.map (·.1)).Nodup then none
      else
        let settings ← sorted.options.foldlM (fun s (name, value) => applyOption s name value) {}
        return ⟨path, settings⟩
  | _ => none

def prepare (lookup : String → Option String) (args : List String) :
    Except Refusal Invocation :=
  match parse? args with
  | none => .error .usage
  | some invocation =>
      match TeamSettings.ofVariables lookup with
      | .error fault => .error (.variable fault)
      | .ok teams => .ok { invocation with settings := { invocation.settings with teams } }

def usage : String :=
  "Usage: corec [--interpretation concrete|sign|bounded] [--store-update strong|weak]\n" ++
  "             [--kont-alloc concrete|0-cfa|p4f] [--frame-alloc concrete|0-cfa]\n" ++
  "             [--heap-alloc concrete|abstract] [--limits cesk|gcc|std]\n" ++
  "             [--max-steps N] PROGRAM\n"

def refuse : Refusal → Outcome
  | .usage => ⟨"", usage, 2⟩
  | .variable fault => ⟨"", "Error: " ++ fault.message ++ "\n", fault.exitCode⟩

def ofReport (r : Report) : Outcome :=
  let fault := match r.fault with
    | some fault => "Runtime error: " ++ fault.message ++ "\n"
    | none => ""
  let safety := if r.memorySafe then "" else "Program is not memory safe\n"
  let counts := s!"states: {r.generated} generated, {r.matched} matched, {r.evaluated} evaluated\n"
  ⟨r.output, fault ++ safety ++ counts, r.exitCode⟩

/-- Carries an invocation out on the contents of its file, or on the reason why the
file could not be read. -/
def execute (invocation : Invocation) (contents : Except String String) : Outcome :=
  match contents with
  | .error reason => ⟨"", s!"Error: cannot read '{invocation.path}': {reason}\n", 1⟩
  | .ok text =>
      match (Json.ofText? text).bind (Program.ofJson? true) with
      | none => ⟨"", s!"Error: '{invocation.path}' is not a canonical AST\n", 1⟩
      | some p => ofReport (run p invocation.settings)

end CommandLine

end CoreC
