import Nachos.Directory
import Nachos.Reachability

/-! The file system (`filesys.cc`): the free map and the directory are themselves files, whose
headers lie in sectors 0 and 1. Every operation fetches the tables it needs, and writes them
back only when all of it has succeeded. `junk` stands for memory that is not initialised. A
session is a file system with the files that are open on it; whether the file of a handle has
been removed is not kept by the program. -/
namespace Nachos

open ByteBuffer

abbrev freeMapSector : ℕ := 0
abbrev directorySector : ℕ := 1
abbrev freeMapFileSize : ℕ := numSectorsOnDisk / 8
abbrev numDirEntries : ℕ := 10
abbrev directoryFileSize : ℕ := dirEntrySize * numDirEntries

namespace BitMap

variable {numBits : ℕ}

abbrev numWords (numBits : ℕ) : ℕ := (numBits + bitsInWord - 1) / bitsInWord

def toBuffer (m : BitMap numBits) : Buffer := ofWords m.word

def ofBuffer (numBits : ℕ) (b : Buffer) : BitMap numBits := ⟨Vector.ofFn fun i => wordAt b i⟩

def fetchFrom (m : BitMap numBits) (file : FileHeader) (d : Disk) :
    Except Trap (BitMap numBits) := do
  let (_, b) ← file.readAt d m.toBuffer (numWords numBits * 4 : ℕ) 0
  return ofBuffer numBits b

def writeBack (m : BitMap numBits) (file : FileHeader) (d : Disk) (junk : Buffer) :
    Except Trap Disk := do
  let (_, d) ← file.writeAt d junk m.toBuffer (numWords numBits * 4 : ℕ) 0
  return d

variable {m : BitMap numBits} {file : FileHeader} {d : Disk}

theorem ofBuffer_congr {b b' : Buffer} (h : ∀ j < numWords numBits * 4, b j = b' j) :
    ofBuffer numBits b = ofBuffer numBits b' := by
  unfold ofBuffer
  congr 2
  funext i
  have hi := i.isLt
  exact wordAt_congr fun j _ hj => h j (by simp only [numWords] at *; omega)

theorem ofBuffer_toBuffer (m : BitMap numBits) : ofBuffer numBits m.toBuffer = m := by
  cases m with
  | mk map =>
    unfold ofBuffer
    congr 1
    ext i hi
    rw [Vector.getElem_ofFn, toBuffer, wordAt_ofWords, word, Vector.getElem?_eq_getElem hi]
    rfl

def stored (numBits : ℕ) (file : FileHeader) (d : Disk) : BitMap numBits :=
  ofBuffer numBits (file.fileByte d)

theorem fetchFrom_ok (hw : file.Wf) (hn : numWords numBits * 4 ≤ file.numBytes.toNat) :
    m.fetchFrom file d = .ok (stored numBits file d) := by
  obtain ⟨b, hread, hbytes⟩ := FileHeader.readAt_table (d := d) hw m.toBuffer hn
  simp only [fetchFrom, hread, bind, Except.bind]
  exact congrArg Except.ok (ofBuffer_congr hbytes)

theorem writeBack_ok (hw : file.Wf) (hd : file.fileSectors.Nodup) (junk : Buffer)
    (hn : numWords numBits * 4 ≤ file.numBytes.toNat) :
    ∃ d', m.writeBack file d junk = .ok d' ∧ stored numBits file d' = m ∧
      ∀ s, s ∉ file.fileSectors → d' s = d s := by
  obtain ⟨d', hwrite, hbytes, hrest⟩ := FileHeader.writeAt_table (d := d) hw hd junk m.toBuffer hn
  refine ⟨d', ?_, ?_, hrest⟩
  · simp only [writeBack, hwrite, bind, Except.bind]
    rfl
  · exact (ofBuffer_congr hbytes).trans (ofBuffer_toBuffer m)

theorem stored_congr {d' : Disk} (hw : file.Wf)
    (hn : numWords numBits * 4 ≤ file.numBytes.toNat)
    (hs : ∀ s ∈ file.fileSectors, d' s = d s) : stored numBits file d' = stored numBits file d :=
  ofBuffer_congr fun _ hj => FileHeader.fileByte_congr hw (lt_of_lt_of_le hj hn) hs

end BitMap

structure OpenFile where
  hdr : FileHeader
  seekPosition : Word

namespace OpenFile

def new (d : Disk) (sector : ℤ) : Except Trap OpenFile := do
  let hdr ← FileHeader.fetchFrom d sector
  return ⟨hdr, 0⟩

def seek (f : OpenFile) (position : Word) : OpenFile := { f with seekPosition := position }

def readAt (f : OpenFile) (d : Disk) (into : Buffer) (numBytes position : Word) :
    Except Trap (ℤ × Buffer) :=
  f.hdr.readAt d into numBytes.toInt position.toInt

def writeAt (f : OpenFile) (d : Disk) (junk src : Buffer) (numBytes position : Word) :
    Except Trap (ℤ × Disk) :=
  f.hdr.writeAt d junk src numBytes.toInt position.toInt

def read (f : OpenFile) (d : Disk) (into : Buffer) (numBytes : Word) :
    Except Trap (ℤ × Buffer × OpenFile) := do
  let (result, into) ← f.readAt d into numBytes f.seekPosition
  return (result, into, f.seek (f.seekPosition + BitVec.ofInt 32 result))

def write (f : OpenFile) (d : Disk) (junk src : Buffer) (numBytes : Word) :
    Except Trap (ℤ × Disk × OpenFile) := do
  let (result, d) ← f.writeAt d junk src numBytes f.seekPosition
  return (result, d, f.seek (f.seekPosition + BitVec.ofInt 32 result))

end OpenFile

structure FileSystem where
  disk : Disk
  freeMapFile : OpenFile
  directoryFile : OpenFile

namespace FileSystem

/-- The constructor, with `format` true, on a disk with anything on it. -/
def format (d : Disk) (junk : ℕ → Buffer) : Except Trap FileSystem := do
  let freeMap ← (BitMap.empty numSectorsOnDisk).mark freeMapSector
  let freeMap ← freeMap.mark directorySector
  let (ok, mapHdr, freeMap) ← (FileHeader.ofBuffer (junk 0)).allocate freeMap freeMapFileSize
  if !ok then throw .assertion
  let (ok, dirHdr, freeMap) ← (FileHeader.ofBuffer (junk 1)).allocate freeMap directoryFileSize
  if !ok then throw .assertion
  let d ← mapHdr.writeBack d freeMapSector
  let d ← dirHdr.writeBack d directorySector
  let freeMapFile ← OpenFile.new d freeMapSector
  let directoryFile ← OpenFile.new d directorySector
  let d ← freeMap.writeBack freeMapFile.hdr d (junk 2)
  let d ← (Directory.new numDirEntries (junk 3)).writeBack directoryFile.hdr d (junk 4)
  return ⟨d, freeMapFile, directoryFile⟩

def fetchDirectory (fs : FileSystem) (junk : Buffer) : Except Trap Directory :=
  (Directory.new numDirEntries junk).fetchFrom fs.directoryFile.hdr fs.disk

def fetchFreeMap (fs : FileSystem) : Except Trap (BitMap numSectorsOnDisk) :=
  (BitMap.empty numSectorsOnDisk).fetchFrom fs.freeMapFile.hdr fs.disk

def allocateFile (fs : FileSystem) (junk : ℕ → Buffer) (directory : Directory)
    (freeMap : BitMap numSectorsOnDisk) (sector initialSize : ℤ) :
    Except Trap (Bool × FileSystem) := do
  let (ok, hdr, freeMap) ← (FileHeader.ofBuffer (junk 1)).allocate freeMap initialSize
  if !ok then return (false, fs)
  else
    let d ← hdr.writeBack fs.disk sector
    let d ← directory.writeBack fs.directoryFile.hdr d (junk 2)
    let d ← freeMap.writeBack fs.freeMapFile.hdr d (junk 3)
    return (true, { fs with disk := d })

def create (fs : FileSystem) (junk : ℕ → Buffer) (name : CString) (initialSize : ℤ) :
    Except Trap (Bool × FileSystem) := do
  let directory ← fs.fetchDirectory (junk 0)
  if directory.find name ≠ -1 then return (false, fs)
  else
    let freeMap ← fs.fetchFreeMap
    let (sector, freeMap) := freeMap.find
    if sector = -1 then return (false, fs)
    else match directory.add name sector with
      | none => return (false, fs)
      | some directory => fs.allocateFile junk directory freeMap sector initialSize

def lookup (fs : FileSystem) (junk : ℕ → Buffer) (name : CString) : Except Trap ℤ := do
  let directory ← fs.fetchDirectory (junk 0)
  return directory.find name

def openFile (fs : FileSystem) (junk : ℕ → Buffer) (name : CString) :
    Except Trap (Option OpenFile) := do
  let sector ← fs.lookup junk name
  if 0 ≤ sector then
    let file ← OpenFile.new fs.disk sector
    return some file
  else return none

def remove (fs : FileSystem) (junk : ℕ → Buffer) (name : CString) :
    Except Trap (Bool × FileSystem) := do
  let directory ← fs.fetchDirectory (junk 0)
  let sector := directory.find name
  if sector = -1 then return (false, fs)
  else
    let fileHdr ← FileHeader.fetchFrom fs.disk sector
    let freeMap ← fs.fetchFreeMap
    let freeMap ← fileHdr.deallocate freeMap
    let freeMap ← freeMap.clear sector
    let directory := (directory.remove name).getD directory
    let d ← freeMap.writeBack fs.freeMapFile.hdr fs.disk (junk 1)
    let d ← directory.writeBack fs.directoryFile.hdr d (junk 2)
    return (true, { fs with disk := d })

end FileSystem

structure Handle where
  file : OpenFile
  sector : ℤ
  removed : Bool

structure Session where
  fs : FileSystem
  handles : List (Option Handle)

namespace Session

inductive Event
  | create (name : CString) (initialSize : Word)
  | openFile (name : CString)
  | remove (name : CString)
  | seek (id : ℕ) (position : Word)
  | readAt (id : ℕ) (into : Buffer) (numBytes position : Word)
  | writeAt (id : ℕ) (src : Buffer) (numBytes position : Word)
  | read (id : ℕ) (into : Buffer) (numBytes : Word)
  | write (id : ℕ) (src : Buffer) (numBytes : Word)
  | close (id : ℕ)

def handle (s : Session) (id : ℕ) : Option Handle := s.handles[id]?.join

def setFile (s : Session) (id : ℕ) (f : Handle) (file : OpenFile) : Session :=
  { s with handles := s.handles.set id (some { f with file := file }) }

def forget (s : Session) (sector : ℤ) : Session :=
  { s with handles := s.handles.map fun o => o.map fun f =>
      if f.sector = sector then { f with removed := true } else f }

/-- Nothing if the program stops in the step, or has no such handle. -/
def step (s : Session) (junk : ℕ → Buffer) : Event → Option Session
  | .create name initialSize => do
    let (_, fs) ← (s.fs.create junk name initialSize.toInt).toOption
    return { s with fs := fs }
  | .openFile name => do
    let sector ← (s.fs.lookup junk name).toOption
    let file ← (s.fs.openFile junk name).toOption
    return { s with handles := s.handles ++ [file.map fun file => ⟨file, sector, false⟩] }
  | .remove name => do
    let sector ← (s.fs.lookup junk name).toOption
    let (ok, fs) ← (s.fs.remove junk name).toOption
    let s := { s with fs := fs }
    return if ok then s.forget sector else s
  | .seek id position => do
    let f ← s.handle id
    return s.setFile id f (f.file.seek position)
  | .readAt id into numBytes position => do
    let f ← s.handle id
    let _ ← (f.file.readAt s.fs.disk into numBytes position).toOption
    return s
  | .writeAt id src numBytes position => do
    let f ← s.handle id
    let (_, d) ← (f.file.writeAt s.fs.disk (junk 0) src numBytes position).toOption
    return { s with fs := { s.fs with disk := d } }
  | .read id into numBytes => do
    let f ← s.handle id
    let (_, _, file) ← (f.file.read s.fs.disk into numBytes).toOption
    return s.setFile id f file
  | .write id src numBytes => do
    let f ← s.handle id
    let (_, d, file) ← (f.file.write s.fs.disk (junk 0) src numBytes).toOption
    return { s with fs := { s.fs with disk := d } }.setFile id f file
  | .close id => do
    let _ ← s.handle id
    return { s with handles := s.handles.set id none }

def Init (s : Session) : Prop :=
  s.handles = [] ∧ ∃ d junk, FileSystem.format d junk = .ok s.fs

/-- The handle, the length and the position of the request that a step makes to `WriteAt`. -/
def writeRequest (s : Session) : Event → Option (Handle × ℤ × ℤ)
  | .writeAt id _ numBytes position => (s.handle id).map fun f =>
    (f, numBytes.toInt, position.toInt)
  | .write id _ numBytes =>
    (s.handle id).map fun f => (f, numBytes.toInt, f.file.seekPosition.toInt)
  | _ => none

def Event.createSize : Event → ℤ
  | .create _ initialSize => initialSize.toInt
  | _ => 0

/-- Sizes within the limit, and no write to a file that has been removed. -/
def Proper (s : Session) (e : Event) : Prop :=
  e.createSize ≤ maxFileSize ∧ ∀ r ∈ s.writeRequest e, r.1.removed = false

/-- A write that is made starts at a position that is not negative and ends at one that is
an `int`. -/
def InRange (s : Session) (e : Event) : Prop :=
  ∀ r ∈ s.writeRequest e, 0 < r.2.1 → r.2.2 < r.1.file.hdr.numBytes →
    0 ≤ r.2.2 ∧ r.2.2 + r.2.1 < 2 ^ 31

instance (s : Session) (e : Event) : Decidable (s.Proper e) := inferInstanceAs (Decidable (_ ∧ _))

instance (s : Session) (e : Event) : Decidable (s.InRange e) :=
  inferInstanceAs (Decidable (∀ r ∈ s.writeRequest e, _))

end Session

end Nachos
