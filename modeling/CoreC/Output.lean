import CoreC.Task.Barrier

/-! # Output of a run -/

namespace CoreC

/-- Text that one thread printed from one line. -/
structure Chunk where
  text : String
  thread : ThreadId
  location : Location
  deriving DecidableEq

/-- What was printed so far, the latest chunk first. -/
structure Output where
  latest : List Chunk
  deriving DecidableEq

namespace Output

def empty : Output := ⟨[]⟩

def chunks (o : Output) : List Chunk := o.latest.reverse

/-- Prints a text. It joins the chunk before it if that came from the same thread and
line. -/
def print (o : Output) (text : String) (thread : ThreadId) (location : Location) : Output :=
  match o.latest with
  | last :: rest =>
      if last.thread = thread ∧ last.location.line = location.line then
        ⟨{ last with text := last.text ++ text } :: rest⟩
      else ⟨⟨text, thread, location⟩ :: o.latest⟩
  | [] => ⟨[⟨text, thread, location⟩]⟩

def contents (o : Output) : String := String.join (o.chunks.map (·.text))

def ofThread (o : Output) (thread : ThreadId) : String :=
  String.join ((o.chunks.filter fun chunk => chunk.thread = thread).map (·.text))

end Output

end CoreC
