import Mathlib.Data.Finmap
import Mathlib.Tactic
import Nachos.Simulation

/-! A store of named sequences of bytes, with handles that have a position. A name is bound when
its file is created, with the length that the file keeps, and until the file is removed; then the
handles on it are stale. The store has room for so many names and so many blocks. What a new file
holds is not said. -/
namespace FlatStore

structure Limits where
  names : ℕ
  blocks : ℕ
  cost : ℕ → ℕ

inductive Handle (κ : Type) where
  | closed
  | stale
  | on (key : κ) (position : ℤ)

structure Store (κ β : Type) where
  files : Finmap fun _ : κ => List β
  handles : List (Handle κ)

inductive Request (κ β : Type) where
  | create (key : κ) (size : ℕ)
  | openFile (key : κ)
  | remove (key : κ)
  | seek (id : ℕ) (position : ℤ)
  | readAt (id : ℕ) (count position : ℤ)
  | writeAt (id : ℕ) (src : ℕ → β) (count position : ℤ)
  | read (id : ℕ) (count : ℤ)
  | write (id : ℕ) (src : ℕ → β) (count : ℤ)
  | close (id : ℕ)
  | reboot

inductive Answer (β : Type) where
  | done
  | result (ok : Bool)
  | count (n : ℤ)
  | data (n : ℤ) (bytes : List β)

variable {κ β : Type}

def within (length : ℕ) (count position : ℤ) : ℤ := max 0 (min count (length - position))

def slice (c : List β) (count position : ℤ) : List β :=
  (c.drop position.toNat).take (within c.length count position).toNat

def splice (c : List β) (src : ℕ → β) (count position : ℤ) : List β :=
  c.mapIdx fun x b =>
    if position ≤ x ∧ x < position + within c.length count position then src (x - position).toNat
    else b

namespace Store

def handle (t : Store κ β) (id : ℕ) : Handle κ := t.handles[id]?.getD .closed

def setHandle (t : Store κ β) (id : ℕ) (h : Handle κ) : Store κ β :=
  { t with handles := t.handles.set id h }

variable [DecidableEq κ]

def Handle.forget (key : κ) : Handle κ → Handle κ
  | .on k position => if k = key then .stale else .on k position
  | h => h

def fileAt (t : Store κ β) (id : ℕ) : Option (κ × ℤ × List β) :=
  match t.handle id with
  | .on k position => (t.files.lookup k).map fun c => (k, position, c)
  | _ => none

def used (L : Limits) (t : Store κ β) : ℕ := (t.files.entries.map fun f => L.cost f.2.length).sum

def Room (L : Limits) (t : Store κ β) (key : κ) (size : ℕ) : Prop :=
  key ∉ t.files ∧ t.files.keys.card < L.names ∧ t.used L + L.cost size ≤ L.blocks

instance (L : Limits) (t : Store κ β) (key : κ) (size : ℕ) : Decidable (t.Room L key size) :=
  inferInstanceAs (Decidable (_ ∧ _ ∧ _))

/-- A request and its answer; `fresh` is what a new file holds. -/
def call (L : Limits) (fresh : List β) (t : Store κ β) :
    Request κ β → Option (Store κ β × Answer β)
  | .create key size =>
    if t.Room L key size then
      some ({ t with files := t.files.insert key fresh }, .result true)
    else some (t, .result false)
  | .openFile key =>
    if key ∈ t.files then some ({ t with handles := t.handles ++ [.on key 0] }, .result true)
    else some ({ t with handles := t.handles ++ [.closed] }, .result false)
  | .remove key =>
    if key ∈ t.files then
      some (⟨t.files.erase key, t.handles.map (Handle.forget key)⟩, .result true)
    else some (t, .result false)
  | .seek id position =>
    match t.handle id with
    | .closed => none
    | .stale => some (t, .done)
    | .on k _ => some (t.setHandle id (.on k position), .done)
  | .readAt id n p => do
    let (_, _, c) ← t.fileAt id
    return (t, .data (within c.length n p) (slice c n p))
  | .writeAt id src n p => do
    let (k, _, c) ← t.fileAt id
    return ({ t with files := t.files.insert k (splice c src n p) },
      .count (within c.length n p))
  | .read id n => do
    let (k, p, c) ← t.fileAt id
    return (t.setHandle id (.on k (p + within c.length n p)),
      .data (within c.length n p) (slice c n p))
  | .write id src n => do
    let (k, p, c) ← t.fileAt id
    return ({ t with files := t.files.insert k (splice c src n p) }.setHandle id
      (.on k (p + within c.length n p)), .count (within c.length n p))
  | .close id =>
    match t.handle id with
    | .closed => none
    | _ => some (t.setHandle id .closed, .done)
  | .reboot => some ({ t with handles := [] }, .done)

/-- A new file has the length that is asked for. -/
def Step (L : Limits) (t : Store κ β) (l : Request κ β × Answer β) (t' : Store κ β) : Prop :=
  ∃ fresh, (∀ key size, l.1 = .create key size → fresh.length = size) ∧
    t.call L fresh l.1 = some (t', l.2)

end Store

@[simp] theorem length_splice (c : List β) (src : ℕ → β) (count position : ℤ) :
    (splice c src count position).length = c.length := by
  simp [splice]

end FlatStore
