import CoreC.Fault
import CoreC.Text.Blank

/-! # Settings of a run

Each policy has a list of spellings, the first of which is its name. Spellings are
matched without regard to the case of ASCII letters. Thread settings are read from
named variables.
-/

namespace CoreC

/-- How much is known of a number. -/
inductive Precision where
  | concrete
  | sign
  | bounded
  deriving DecidableEq

/-- What a second write to the same place does: replace, or add. -/
inductive UpdatePolicy where
  | strong
  | weak
  deriving DecidableEq

/-- When two continuations share an address: never, when they resume at the same
point, or when they resume at the same point in the same frame. -/
inductive KontPolicy where
  | concrete
  | zeroCfa
  | p4f
  deriving DecidableEq

/-- When two activations share a frame: never, or when they run the same block. -/
inductive FramePolicy where
  | concrete
  | zeroCfa
  deriving DecidableEq

/-- When two heap requests share a block: never, or when made at the same site. -/
inductive HeapPolicy where
  | concrete
  | abstract
  deriving DecidableEq

/-- Loop schedule asked for; every loop is split into one task per iteration. -/
inductive LoopSchedule where
  | dynamic
  | static
  | guided
  | auto
  deriving DecidableEq

namespace Settings

abbrev Spellings (α : Type) := List (String × α)

def parse {α : Type} (key : String) (spellings : Spellings α) (text : String) : Except Fault α :=
  match spellings.lookup (Text.lowerAscii text) with
  | some value => .ok value
  | none => .error (.unknownSetting key text)

/-- The name of a value: its first spelling. -/
def nameOf {α : Type} [DecidableEq α] (spellings : Spellings α) (value : α) : String :=
  ((spellings.find? fun entry => entry.2 = value).map (·.1)).getD ""

end Settings

open Settings

namespace Precision

def spellings : Spellings Precision :=
  [("concrete", .concrete), ("sign", .sign), ("bounded", .bounded), ("k-bounded", .bounded)]

def parse : String → Except Fault Precision := Settings.parse "interpretation" spellings

def name : Precision → String := nameOf spellings

/-- Whether numbers may be known only in part. -/
def isAbstract (p : Precision) : Bool := p != .concrete

end Precision

namespace UpdatePolicy

def spellings : Spellings UpdatePolicy := [("strong", .strong), ("weak", .weak)]

def parse : String → Except Fault UpdatePolicy := Settings.parse "store_update" spellings

def name : UpdatePolicy → String := nameOf spellings

end UpdatePolicy

namespace KontPolicy

def spellings : Spellings KontPolicy :=
  [("concrete", .concrete), ("0-cfa", .zeroCfa), ("0cfa", .zeroCfa), ("p4f", .p4f)]

def parse : String → Except Fault KontPolicy := Settings.parse "kont_alloc" spellings

def name : KontPolicy → String := nameOf spellings

end KontPolicy

namespace FramePolicy

def spellings : Spellings FramePolicy :=
  [("concrete", .concrete), ("0-cfa", .zeroCfa), ("0cfa", .zeroCfa)]

def parse : String → Except Fault FramePolicy := Settings.parse "frame_alloc" spellings

def name : FramePolicy → String := nameOf spellings

end FramePolicy

namespace HeapPolicy

def spellings : Spellings HeapPolicy := [("concrete", .concrete), ("abstract", .abstract)]

def parse : String → Except Fault HeapPolicy := Settings.parse "heap_alloc" spellings

def name : HeapPolicy → String := nameOf spellings

end HeapPolicy

namespace LoopSchedule

def spellings : Spellings LoopSchedule :=
  [("dynamic", .dynamic), ("static", .static), ("guided", .guided), ("auto", .auto)]

def parse : String → Except Fault LoopSchedule := Settings.parse "OMP_SCHEDULE" spellings

def name : LoopSchedule → String := nameOf spellings

end LoopSchedule

namespace Target

def spellings : Spellings Target := [("cesk", .packed), ("gcc", .gcc), ("std", .std)]

def parse : String → Except Fault Target := Settings.parse "limits" spellings

def name : Target → String := nameOf spellings

end Target

/-- What the thread teams of a run may do. -/
structure TeamSettings where
  numThreads : Nat := 2
  threadLimit : Nat := 2
  dynamic : Bool := true
  nested : Bool := false
  maxActiveLevels : Nat := 1
  schedule : LoopSchedule := .dynamic
  deriving DecidableEq

namespace TeamSettings

/-- A positive 64-bit count. -/
def parseCount (key text : String) : Except Fault Nat :=
  match Text.readCount? (2 ^ 64) (Text.trim text) with
  | some (n + 1) => .ok (n + 1)
  | _ => .error (.unknownSetting key text)

def parseFlag (key text : String) : Except Fault Bool :=
  let word := Text.lowerAscii (Text.trim text)
  if word = "true" ∨ word = "1" ∨ word = "yes" then .ok true
  else if word = "false" ∨ word = "0" ∨ word = "no" then .ok false
  else .error (.unknownSetting key text)

/-- The setting of a variable, or its default when the variable is not set. -/
def readVariable {α : Type} (lookup : String → Option String) (key : String) (default : α)
    (parse : String → Except Fault α) : Except Fault α :=
  match lookup key with
  | some text => parse text
  | none => .ok default

/-- Reads the `OMP_*` variables, in a fixed order. Of a list of thread counts only the
outermost level is used, of a schedule only its kind. -/
def ofVariables (lookup : String → Option String) : Except Fault TeamSettings := do
  let preset : TeamSettings := {}
  let numThreads ← readVariable lookup "OMP_NUM_THREADS" preset.numThreads fun text =>
    parseCount "OMP_NUM_THREADS" (Text.before ',' text)
  let threadLimit ← readVariable lookup "OMP_THREAD_LIMIT" preset.threadLimit
    (parseCount "OMP_THREAD_LIMIT")
  let dynamic ← readVariable lookup "OMP_DYNAMIC" preset.dynamic (parseFlag "OMP_DYNAMIC")
  let nested ← readVariable lookup "OMP_NESTED" preset.nested (parseFlag "OMP_NESTED")
  let maxActiveLevels ← readVariable lookup "OMP_MAX_ACTIVE_LEVELS" preset.maxActiveLevels
    (parseCount "OMP_MAX_ACTIVE_LEVELS")
  let schedule ← readVariable lookup "OMP_SCHEDULE" preset.schedule fun text =>
    LoopSchedule.parse (Text.trim (Text.before ',' text))
  return { numThreads, threadLimit, dynamic, nested, maxActiveLevels, schedule }

end TeamSettings

/-- Everything a run needs besides the program. -/
structure Settings where
  precision : Precision := .concrete
  update : UpdatePolicy := .strong
  konts : KontPolicy := .concrete
  frames : FramePolicy := .concrete
  heap : HeapPolicy := .concrete
  target : Target := .packed
  teams : TeamSettings := {}
  /-- Steps before the run is given up. -/
  maxSteps : Nat := 1000000
  deriving DecidableEq

/-- The settings with the one of a given name set to the value that a text spells. -/
def Settings.assign (s : Settings) (key value : String) : Except Fault Settings :=
  match key with
  | "interpretation" => (Precision.parse value).map fun precision => { s with precision }
  | "store_update" => (UpdatePolicy.parse value).map fun update => { s with update }
  | "kont_alloc" => (KontPolicy.parse value).map fun konts => { s with konts }
  | "frame_alloc" => (FramePolicy.parse value).map fun frames => { s with frames }
  | "heap_alloc" => (HeapPolicy.parse value).map fun heap => { s with heap }
  | "limits" => (Target.parse value).map fun target => { s with target }
  | "max_steps" =>
      match Text.readCount? (2 ^ 64) value with
      | some maxSteps => .ok { s with maxSteps }
      | none => .error (.unknownSetting key value)
  | _ => .error (.unknownSetting key value)

end CoreC
