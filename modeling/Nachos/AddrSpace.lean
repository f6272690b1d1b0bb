import Nachos.BitMap
import Nachos.StatePost

/-! Address spaces in the VM build (`addrspace.cc` with `VM` and `USE_TLB`): the constructor,
the page-fault service `MoveraMemoria`, the victim search and the state saved on a context
switch. `ipt` points to the entries that `new TPI` allocates, which is one; an index outside a
table or outside these entries, a frame outside `mainMemory` and the use of a field that has
no value are `Trap.memory`. The page-fault service works on the state that all spaces share
(`Core`) together with the space of the current thread. -/
namespace Nachos

abbrev HostFile := List Byte

namespace HostFile

def readAt (f : HostFile) (numBytes position : ℕ) : List Byte := (f.drop position).take numBytes

def writeAt (f : HostFile) (from' : List Byte) (position : ℕ) : HostFile :=
  f.take position ++ List.replicate (position - f.length) 0 ++ from' ++
    f.drop (position + from'.length)

end HostFile

structure Segment where
  virtualAddr : ℕ
  inFileAddr : ℕ
  size : ℕ
  deriving DecidableEq, Repr

abbrev userStackSize : ℕ := 1024
abbrev noffHeaderSize : ℕ := 40

/-- The segments of an executable. The size of the address space is computed in an `int`. -/
structure NoffHeader where
  code : Segment
  initData : Segment
  uninitData : Segment
  size_lt : code.size + initData.size + uninitData.size + userStackSize < 2 ^ 31

def divRoundUp (n s : ℕ) : ℕ := n / s + if n % s > 0 then 1 else 0

def NoffHeader.numPages (h : NoffHeader) : ℕ :=
  divRoundUp (h.code.size + h.initData.size + h.uninitData.size + userStackSize) pageSize

/-- `ipt` points to `iptEntries` entries. In a space made by `AddrSpace(AddrSpace *)` (`copied`)
`ipt`, `noffH1` and `ejecutable` have no value. -/
structure AddrSpace where
  pageTable : List TranslationEntry
  ipt : Fin numPhysPages → ℤ
  iptEntries : ℕ
  noffH1 : NoffHeader
  ejecutable : HostFile
  copied : Bool

/-- `AddrSpace(OpenFile *, const char *)`, with `ipt = new TPI`. -/
def AddrSpace.new (noffH : NoffHeader) (ejecutable : HostFile) : AddrSpace where
  pageTable := (List.range noffH.numPages).map fun i : ℕ =>
    TranslationEntry.mk i (-1) false false false false
  ipt := fun _ => -1
  iptEntries := 1
  noffH1 := noffH
  ejecutable := ejecutable
  copied := false

/-- What the address spaces share. `lastFault` is the variable `i` of `exception.cc`. -/
structure Core where
  mainMemory : Memory
  tlb : Tlb
  memoryMap : BitMap numPhysPages
  swapMap : BitMap (numPhysPages * 2)
  swap : HostFile
  iter : Fin tlbSize
  lastFault : ℤ

structure Vm extends Core where
  space : AddrSpace

abbrev Kernel := EStateM Trap Vm

def page (v : ℤ) : Kernel TranslationEntry := do
  let s ← get
  if v < 0 then throw .memory
  match s.space.pageTable[v.toNat]? with
  | some e => return e
  | none => throw .memory

def AddrSpace.setPage (a : AddrSpace) (v : ℤ) (f : TranslationEntry → TranslationEntry) :
    AddrSpace :=
  { a with pageTable := a.pageTable.modify v.toNat f }

def updatePage (v : ℤ) (f : TranslationEntry → TranslationEntry) : Kernel Unit := do
  let _ ← page v
  modify fun s => { s with space := s.space.setPage v f }

def memoryBytes (start : ℤ) : Kernel (List Byte) := do
  let s ← get
  if start < 0 ∨ memorySize < start + pageSize then throw .memory
  return (List.range pageSize).map fun j => s.mainMemory (start.toNat + j)

def Memory.putBytes (mem : Memory) (start : ℕ) (bytes : List Byte) : Memory := fun a =>
  if start ≤ a then (bytes[a - start]?).getD (mem a) else mem a

def putFrame (frame : ℤ) (bytes : List Byte) : Kernel Unit := do
  if frame < 0 ∨ numPhysPages ≤ frame then throw .memory
  modify fun s =>
    { s with mainMemory := s.mainMemory.putBytes (frame.toNat * pageSize) bytes }

def copiarATLB (indPagT : ℤ) (indTLB : Fin tlbSize) : Kernel Unit := do
  let e ← page indPagT
  modify fun s => { s with tlb := Function.update s.tlb indTLB e }

def refillTlb (vpn : ℤ) : Kernel Unit := do
  let s ← get
  copiarATLB vpn s.iter
  modify fun s => { s with iter := s.iter + 1 }

def iptVpn (f : Fin numPhysPages) : Kernel ℤ := do
  let s ← get
  if s.space.iptEntries ≤ f then throw .memory
  return s.space.ipt f

def sweepFrames : List (Fin numPhysPages) → Kernel (Option ℤ)
  | [] => return none
  | f :: fs => do
    let vpn ← iptVpn f
    let e ← page vpn
    if e.use then
      updatePage vpn fun e => { e with use := false }
      sweepFrames fs
    else return some e.physicalPage

/-- The `while` loop of `buscarVictima`. A round that finds nothing has cleared every use
bit, so the second round finds a frame and no third one is reached. -/
def buscarVictima : Kernel ℤ := do
  match ← sweepFrames (List.finRange numPhysPages).tail with
  | some victima => return victima
  | none =>
    match ← sweepFrames (List.finRange numPhysPages).tail with
    | some victima => return victima
    | none => throw .assertion

def liftTrap {α : Type} (x : Except Trap α) : Kernel α :=
  match x with
  | .ok a => return a
  | .error t => throw t

/-- The page in the next TLB slot goes to the swap file if it is dirty. The bytes written
start at the number of a frame, not at the frame. -/
def swapOut : Kernel Unit := do
  let s ← get
  let out := s.tlb s.iter
  let e ← page out.virtualPage
  if e.dirty then
    let (campo, swapMap) := s.swapMap.find
    modify fun s => { s with swapMap := swapMap }
    let source ← page s.iter.val
    let bytes ← memoryBytes source.physicalPage
    if campo < 0 then throw .assertion
    modify fun s => { s with swap := s.swap.writeAt bytes (campo.toNat * pageSize) }
    let memoryMap ← liftTrap (s.memoryMap.clear out.physicalPage)
    modify fun s => { s with memoryMap := memoryMap }
    updatePage out.virtualPage fun e => { e with physicalPage := campo }
    updatePage out.virtualPage fun e => { e with valid := false }

def findFrame (writeBack : Bool) : Kernel ℤ := do
  let s ← get
  let (ubcMemFis, memoryMap) := s.memoryMap.find
  modify fun s => { s with memoryMap := memoryMap }
  if ubcMemFis = -1 then
    let victima ← buscarVictima
    if writeBack then swapOut
    return victima
  else return ubcMemFis

def installPage (vpn ubcMemFis : ℤ) (dirty readOnly : Bool) : Kernel Unit :=
  updatePage vpn fun _ => ⟨vpn, ubcMemFis, true, readOnly, true, dirty⟩

def setIpt (frame vpn : ℤ) : Kernel Unit := do
  let s ← get
  if s.space.iptEntries ≤ frame then throw .memory
  if h : 0 ≤ frame ∧ frame < numPhysPages then
    set { s with space := { s.space with
      ipt := Function.update s.space.ipt ⟨frame.toNat, by omega⟩ vpn } }
  else throw .memory

def readExecutable (vpn : ℤ) : Kernel Unit := do
  let e ← page vpn
  let s ← get
  putFrame e.physicalPage
    (s.space.ejecutable.readAt pageSize (noffHeaderSize + vpn.toNat * pageSize))

def readSwap (vpn campo : ℤ) : Kernel Unit := do
  let e ← page vpn
  let s ← get
  if campo < 0 then throw .assertion
  putFrame e.physicalPage (s.swap.readAt pageSize (campo.toNat * pageSize))
  let swapMap ← liftTrap (s.swapMap.clear campo)
  modify fun s => { s with swapMap := swapMap }

def syncTlbSlot (i : Fin tlbSize) : Kernel Unit := do
  let s ← get
  updatePage (s.tlb i).virtualPage fun e =>
    { e with dirty := (s.tlb i).dirty, use := (s.tlb i).use }

def syncTlb : Kernel Unit := do
  syncTlbSlot 0
  syncTlbSlot 1
  syncTlbSlot 2
  syncTlbSlot 3

def moveraMemoria (vpn : ℤ) : Kernel Unit := do
  syncTlb
  let s ← get
  if s.space.copied then throw .memory
  let numPages1 := divRoundUp s.space.noffH1.code.size pageSize
  let numPages2 := divRoundUp s.space.noffH1.initData.size pageSize
  let entry ← page vpn
  if vpn < numPages1 then
    if !entry.valid then
      let ubcMemFis ← findFrame false
      installPage vpn ubcMemFis false true
      refillTlb vpn
      readExecutable vpn
      setIpt ubcMemFis vpn
    else refillTlb vpn
  else if vpn < numPages2 then
    if !entry.valid && !entry.dirty then
      let ubcMemFis ← findFrame true
      installPage vpn ubcMemFis false false
      refillTlb vpn
      readExecutable vpn
      setIpt ubcMemFis vpn
    else if entry.valid then refillTlb vpn
    else
      let campoViejo := entry.physicalPage
      let ubcMemFis ← findFrame true
      installPage vpn ubcMemFis true false
      refillTlb vpn
      readSwap vpn campoViejo
      setIpt ubcMemFis vpn
  else
    if !entry.valid && !entry.dirty then
      let ubcMemFis ← findFrame true
      installPage vpn ubcMemFis false false
      refillTlb vpn
      setIpt ubcMemFis vpn
    else if entry.valid then refillTlb vpn
    else
      let campoViejo := entry.physicalPage
      let ubcMemFis ← findFrame true
      installPage vpn ubcMemFis true false
      refillTlb vpn
      readSwap vpn campoViejo
      setIpt ubcMemFis vpn

end Nachos
