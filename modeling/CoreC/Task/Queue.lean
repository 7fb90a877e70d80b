/-! # Queues

A queue as two lists: elements leave at the front of one and enter at the front of
the other, which holds the latest first.
-/

namespace CoreC

structure Queue (α : Type) where
  front : List α
  back : List α

namespace Queue

variable {α : Type}

def empty : Queue α := ⟨[], []⟩

def toList (q : Queue α) : List α := q.front ++ q.back.reverse

def ofList (elements : List α) : Queue α := ⟨elements, []⟩

def size (q : Queue α) : Nat := q.front.length + q.back.length

def isEmpty (q : Queue α) : Bool := q.front.isEmpty && q.back.isEmpty

def push (q : Queue α) (a : α) : Queue α := { q with back := a :: q.back }

def pop? (q : Queue α) : Option (α × Queue α) :=
  match q.front with
  | a :: front => some (a, { q with front })
  | [] =>
      match q.back.reverse with
      | a :: front => some (a, ⟨front, []⟩)
      | [] => none

theorem toList_empty : (empty : Queue α).toList = [] := rfl

@[simp]
theorem toList_ofList (elements : List α) : (ofList elements).toList = elements := by
  simp [toList, ofList]

theorem size_eq (q : Queue α) : q.size = q.toList.length := by simp [size, toList]

theorem isEmpty_eq (q : Queue α) : q.isEmpty = q.toList.isEmpty := by
  cases h : q.front <;> cases h' : q.back <;> simp [isEmpty, toList, h, h']

@[simp]
theorem toList_push (q : Queue α) (a : α) : (q.push a).toList = q.toList ++ [a] := by
  simp [toList, push]

/-- What leaves is the head of the list. -/
theorem pop?_eq (q : Queue α) :
    (q.pop?).map (fun r => (r.1, r.2.toList)) =
      q.toList.head?.map fun a => (a, q.toList.tail) := by
  obtain ⟨front, back⟩ := q
  cases front with
  | cons a front => simp [pop?, toList]
  | nil =>
      cases h : back.reverse with
      | nil => simp [pop?, toList, h]
      | cons a rest => simp [pop?, toList, h]

end Queue

end CoreC
