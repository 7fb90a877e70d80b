import CoreC.Kont.Encoding
import CoreC.Settings
import CoreC.Task.State

/-! # Task states and thread settings in JSON -/

namespace CoreC

open Json

namespace State

def toJson (s : State) : Json := .str s.text

def ofJson? (j : Json) : Option State := do
  let f ← Fields.ofJson? ["tid", "ctrl", "env", "kont", "barrier"] j
  let control ← f.required? "ctrl" Control.ofJson?
  let frame ← f.required? "env" Json.toNat?
  let kont ← f.required? "kont" Json.toNat?
  let thread ← f.required? "tid" Json.toNat?
  return ⟨control, frame, kont, thread, ← f.optional? "barrier" Barrier.ofJson?⟩

end State

namespace TeamSettings

def toJson (t : TeamSettings) : Json :=
  .obj [("num_threads", .ofNat t.numThreads), ("thread_limit", .ofNat t.threadLimit),
    ("dynamic", .bool t.dynamic), ("nested", .bool t.nested),
    ("max_active_levels", .ofNat t.maxActiveLevels), ("schedule", .str t.schedule.name)]

/-- Settings that an object gives, the usual ones where it does not. A loop schedule
of an unknown name is a fault. -/
def ofJson? (j : Json) : Option (Except Fault TeamSettings) := do
  let usual : TeamSettings := {}
  let f ← Fields.ofJson? ["num_threads", "thread_limit", "dynamic", "nested", "max_active_levels",
    "schedule"] j
  let numThreads ← f.optional? "num_threads" Json.toNat?
  let threadLimit ← f.optional? "thread_limit" Json.toNat?
  let dynamic ← f.optional? "dynamic" Json.toBool?
  let nested ← f.optional? "nested" Json.toBool?
  let maxActiveLevels ← f.optional? "max_active_levels" Json.toNat?
  let schedule ← f.optional? "schedule" Json.toString?
  return do
    let schedule ← schedule.elim (.ok usual.schedule) LoopSchedule.parse
    return {
      numThreads := numThreads.getD usual.numThreads
      threadLimit := threadLimit.getD usual.threadLimit
      dynamic := dynamic.getD usual.dynamic
      nested := nested.getD usual.nested
      maxActiveLevels := maxActiveLevels.getD usual.maxActiveLevels
      schedule }

end TeamSettings

end CoreC
