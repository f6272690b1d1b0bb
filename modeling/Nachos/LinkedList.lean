import Mathlib.Data.List.Sort
import Nachos.CallRuns
import Nachos.LinkedCells

/-! The singly linked `List` (`list.h`). An operation is `none` where it goes through a null or a
freed pointer, and where the search of `SortedInsert` does more rounds than its `fuel`. `new` is
given the address the allocator chooses; `heap` holds the elements of this list and of any
others. -/
namespace Nachos.LinkedList
open LinkedCells

structure ListElement (Ptr Item : Type) where
  next : Option Ptr
  key : ℤ
  item : Item

structure State (Ptr Item : Type) where
  heap : Ptr → Option (ListElement Ptr Item)
  first : Option Ptr
  last : Option Ptr

variable {Ptr Item : Type} [DecidableEq Ptr] [Inhabited Item]

namespace State

def new (heap : Ptr → Option (ListElement Ptr Item)) : State Ptr Item where
  heap := heap
  first := none
  last := none

def newNode (s : State Ptr Item) (element : Ptr) (item : Item) (sortKey : ℤ) : State Ptr Item :=
  { s with heap := Function.update s.heap element (some ⟨none, sortKey, item⟩) }

def deref (s : State Ptr Item) (ptr : Option Ptr) : Option (ListElement Ptr Item) :=
  ptr.bind s.heap

def setNext (s : State Ptr Item) (ptr next : Option Ptr) : Option (State Ptr Item) := do
  let p ← ptr
  let e ← s.heap p
  some { s with heap := Function.update s.heap p (some { e with next := next }) }

def delete (s : State Ptr Item) (ptr : Option Ptr) : Option (State Ptr Item) := do
  let p ← ptr
  let _ ← s.heap p
  some { s with heap := Function.update s.heap p none }

def isEmpty (s : State Ptr Item) : Bool := s.first.isNone

def append (s : State Ptr Item) (element : Ptr) (item : Item) : Option (State Ptr Item) :=
  let s := s.newNode element item 0
  if s.isEmpty then some { s with first := some element, last := some element }
  else do
    let s ← s.setNext s.last (some element)
    some { s with last := some element }

def prepend (s : State Ptr Item) (element : Ptr) (item : Item) : Option (State Ptr Item) :=
  let s := s.newNode element item 0
  if s.isEmpty then some { s with first := some element, last := some element }
  else do
    let s ← s.setNext (some element) s.first
    some { s with first := some element }

def insertFrom (s : State Ptr Item) (element : Ptr) (sortKey : ℤ) :
    ℕ → Option Ptr → Option (State Ptr Item)
  | 0, _ => none
  | fuel + 1, ptr => do
    let e ← s.deref ptr
    if e.next ≠ none then
      let e' ← s.deref e.next
      if sortKey < e'.key then
        let s ← s.setNext (some element) e.next
        s.setNext ptr (some element)
      else s.insertFrom element sortKey fuel e.next
    else
      let s ← s.setNext s.last (some element)
      some { s with last := some element }

def sortedInsert (s : State Ptr Item) (fuel : ℕ) (element : Ptr) (item : Item) (sortKey : ℤ) :
    Option (State Ptr Item) :=
  let s := s.newNode element item sortKey
  if s.isEmpty then some { s with first := some element, last := some element }
  else do
    let e ← s.deref s.first
    if sortKey < e.key then
      let s ← s.setNext (some element) s.first
      some { s with first := some element }
    else s.insertFrom element sortKey fuel s.first

/-- With the int that `keyPtr` points at before and after the call, `none` for `NULL`. -/
def sortedRemove (s : State Ptr Item) (keyPtr : Option ℤ) :
    Option (State Ptr Item × Item × Option ℤ) :=
  let element := s.first
  if s.isEmpty then some (s, default, keyPtr)
  else do
    let e ← s.deref s.first
    let thing := e.item
    let s ← if s.first = s.last then some { s with first := none, last := none }
      else do
        let e ← s.deref element
        some { s with first := e.next }
    let e ← s.deref element
    let keyPtr := if keyPtr ≠ none then some e.key else none
    let s ← s.delete element
    some (s, thing, keyPtr)

def remove (s : State Ptr Item) : Option (State Ptr Item × Item) := do
  let (s, thing, _) ← s.sortedRemove none
  some (s, thing)

end State

inductive Call (Item : Type) where
  | prepend (item : Item)
  | append (item : Item)
  | remove
  | sortedInsert (item : Item) (sortKey : ℤ)
  | sortedRemove (keyPtr : Option ℤ)

def Call.allocates : Call Item → Bool
  | .prepend _ | .append _ | .sortedInsert _ _ => true
  | .remove | .sortedRemove _ => false

/-- What a call gives back: nothing, or the item removed and the int behind `keyPtr`. -/
abbrev Result (Item : Type) := Option (Item × Option ℤ)

def State.call (s : State Ptr Item) (fuel : ℕ) (element : Ptr) :
    Call Item → Option (State Ptr Item × Result Item)
  | .prepend item => (s.prepend element item).map (·, none)
  | .append item => (s.append element item).map (·, none)
  | .remove => s.remove.map fun (s, thing) => (s, some (thing, none))
  | .sortedInsert item sortKey => (s.sortedInsert fuel element item sortKey).map (·, none)
  | .sortedRemove keyPtr => (s.sortedRemove keyPtr).map fun (s, thing, key) =>
    (s, some (thing, key))

/-- A sequence of calls, each with the address a `new` in it returns. -/
def run (fuel : ℕ) : List (Call Item × Ptr) → State Ptr Item →
    Option (State Ptr Item × List (Result Item)) :=
  CallRuns.run fun s c => s.call fuel c.2 c.1

def NewFresh (fuel : ℕ) : List (Call Item × Ptr) → State Ptr Item → Prop
  | [], _ => True
  | (c, element) :: calls, s => (c.allocates → s.heap element = none) ∧
    match s.call fuel element c with
    | none => True
    | some (s, _) => NewFresh fuel calls s

def plainInsert (x : Item × ℤ) (xs : List (Item × ℤ)) : List (Item × ℤ) :=
  xs.orderedInsert (fun a b => a.2 < b.2) x

def plainCall (xs : List (Item × ℤ)) : Call Item → List (Item × ℤ) × Result Item
  | .prepend item => ((item, 0) :: xs, none)
  | .append item => (xs ++ [(item, 0)], none)
  | .remove => (xs.tail, some ((xs.head?.map Prod.fst).getD default, none))
  | .sortedInsert item sortKey => (plainInsert (item, sortKey) xs, none)
  | .sortedRemove keyPtr => match xs with
    | [] => ([], some (default, keyPtr))
    | x :: xs => (xs, some (x.1, keyPtr.map fun _ => x.2))

def plainRun : List (Call Item) → List (Item × ℤ) → List (Item × ℤ) × List (Result Item) :=
  CallRuns.plainRun plainCall

end Nachos.LinkedList
