import CoreC.Kont.Basic
import CoreC.Memory.Encoding

/-! # Continuations in JSON

A control is an array of its name and its numbers, a barrier the word `critical` or
the number of its construct, and a continuation an object that names its kind.
-/

namespace CoreC

open Json

namespace Control

def toJson : Control → Json
  | .stmt block index => .arr [.str "stmt", .ofNat block, .ofNat index]
  | .expr node => .arr [.str "expr", .ofNat node]
  | .invoke => .arr [.str "invoke"]

def ofJson? : Json → Option Control
  | .arr [.str "stmt", block, index] => do return .stmt (← block.toNat?) (← index.toNat?)
  | .arr [.str "expr", node] => do return .expr (← node.toNat?)
  | .arr [.str "invoke"] => some .invoke
  | _ => none

end Control

namespace Barrier

def toJson : Barrier → Json
  | .critical => .str "critical"
  | .construct node => .ofNat node

def ofJson? : Json → Option Barrier
  | .str "critical" => some .critical
  | j => j.toNat?.map .construct

end Barrier

namespace ReleaseMode

def spellings : List (String × ReleaseMode) :=
  [("wait", .wait), ("die", .die), ("continue", .resume)]

def toJson : ReleaseMode → Json := Json.ofNamed spellings

def ofJson? : Json → Option ReleaseMode := Json.ofName? spellings

end ReleaseMode

namespace KontKind

/-- The members of the object of a continuation that its kind fills. -/
def toMembers : KontKind → List (String × Json)
  | .assign dest scalar =>
      [("kind", .str "assign"), ("dest", .ofList Address.toJson dest), ("scalar", scalar.toJson)]
  | .call => [("kind", .str "call")]
  | .branch thenBlock elseBlock =>
      [("kind", .str "if"), ("then", .ofNat thenBlock), ("else", .ofOption .ofNat elseBlock)]
  | .loop body => [("kind", .str "while"), ("body", .ofNat body)]
  | .ret scalar => [("kind", .str "return"), ("scalar", .ofOption Scalar.toJson scalar)]
  | .release barrier mode =>
      [("kind", .str "release"), ("barrier", barrier.toJson), ("mode", mode.toJson)]

def ofFields? (f : Fields) : Option KontKind := do
  match ← f.required? "kind" Json.toString? with
  | "assign" =>
      let dest ← f.required? "dest" (Json.toList? Address.ofJson?)
      return .assign dest (← f.required? "scalar" Scalar.ofJson?)
  | "call" => return .call
  | "if" =>
      let thenBlock ← f.required? "then" Json.toNat?
      return .branch thenBlock (← f.optional? "else" Json.toNat?)
  | "while" => return .loop (← f.required? "body" Json.toNat?)
  | "return" => return .ret (← f.optional? "scalar" Scalar.ofJson?)
  | "release" =>
      let barrier ← f.required? "barrier" Barrier.ofJson?
      return .release barrier (← f.required? "mode" ReleaseMode.ofJson?)
  | _ => none

end KontKind

namespace Continuation

def toJson (kont : Continuation) : Json :=
  .obj (kont.kind.toMembers ++ [("ctrl", kont.control.toJson), ("env", .ofNat kont.frame),
    ("parent", .ofNat kont.parent)])

def ofJson? (j : Json) : Option Continuation := do
  let f ← Fields.ofJson? ["kind", "dest", "scalar", "then", "else", "body", "barrier", "mode",
    "ctrl", "env", "parent"] j
  let kind ← KontKind.ofFields? f
  let control ← f.required? "ctrl" Control.ofJson?
  return ⟨kind, control, ← f.required? "env" Json.toNat?, ← f.required? "parent" Json.toNat?⟩

end Continuation

end CoreC
