import Nachos.Translate
import Nachos.StatePost
import Nachos.StateRelated
import Nachos.Reachability
import Nachos.MipsDecode
import Nachos.MipsMachine
import Nachos.MipsCrash
import Nachos.Semaphore
import Nachos.CallRuns
import Nachos.LinkedCells
import Nachos.KeyedInsert
import Nachos.LinkedList
import Nachos.LinkedListCorrect
import Nachos.SynchList
import Nachos.SynchListCorrect
import Nachos.ExecJoin
import Nachos.ExecJoinCorrect
import Nachos.BitMap
import Nachos.AddrSpace
import Nachos.PageFault
import Nachos.FaultService
import Nachos.DemandPaging
import Nachos.VmSystem
import Nachos.FrameOwnership
import Nachos.TlbIsolation
import Nachos.UserCopy
import Nachos.ByteBuffer
import Nachos.FileHeader
import Nachos.OpenFile
import Nachos.Directory
import Nachos.FileSystem
import Nachos.BitMapSet
import Nachos.FileSystemConsistency
import Nachos.FileSessions
import Nachos.FileIsolation
import Nachos.MipsPrecise
import Nachos.MipsDelaySlot
import Nachos.MipsArchitecture
import Nachos.MipsAlu
import Nachos.MipsControl
import Nachos.MipsLoadStore
import Nachos.SemaphoreCorrect
import Nachos.Lock
import Nachos.LockCorrect
import Nachos.Condition
import Nachos.ConditionCorrect
import Nachos.SynchDisk
import Nachos.SynchDiskCorrect
import Nachos.MailFormat
import Nachos.PostOffice
import Nachos.PostOfficeCorrect
import Nachos.Interrupt
import Nachos.KernelThreads
import Nachos.ThreadConservation
import Nachos.ThreadReclaim
import Nachos.HandleTables
import Nachos.HandleMaps
import Nachos.SystemCalls
import Nachos.SystemCallGuards
import Nachos.Descriptors
import Nachos.UserSemaphores
import Nachos.ExecIds
import Nachos.ProgramImage
import Nachos.ProgramLoading
import Nachos.SpaceLife
import Nachos.FileTransfers
import Nachos.CoffToNoff
import Nachos.PlainMemory
import Nachos.UserNames
import Nachos.WriteTransfers
import Nachos.FrameAllocation
import Nachos.VmProtection
import Nachos.SwapService
import Nachos.SwapSlots
import Nachos.SwapRuns
import Nachos.FaultProgress
import Nachos.SecondChance
import Nachos.PageSharing
import Nachos.ForkSharing
import Nachos.UserRegisters
import Nachos.MipsMultiply
import Nachos.LinearMemory
import Nachos.TlbCopies
import Nachos.HeaderLimits
import Nachos.FileRequests
import Nachos.FileCreation
import Nachos.FileRemoval
import Nachos.InterruptOrder
import Nachos.InterruptDrain
import Nachos.DiskTiming
import Nachos.DirectoryMap
import Nachos.ConsoleInput
import Nachos.Relocation
import Nachos.Simulation
import Nachos.FlatStore
import Nachos.FlatFiles
import Nachos.FlatSessions
import Nachos.DinningPh
import Nachos.LockWaking
import Nachos.DinningPhSeats
import Nachos.DinningPhProgress
