import CS330.Cow.Contents
import CS330.Cow.Processes
import CS330.FileTree.Descriptors
import CS330.FileTree.GrepBuffer
import CS330.FileTree.GrepLines
import CS330.Files.Access
import CS330.Files.Offsets
import CS330.Files.Refinement
import CS330.HashTable.Agreement
import CS330.HashTable.Concurrent
import CS330.HashTable.Termination
import CS330.Hashing.Schedule
import CS330.Memory.Atomicity
import CS330.Memory.CoalescedRuns
import CS330.Memory.Fixed
import CS330.Memory.Spaces
import CS330.Pipe.Bounds
import CS330.Pipeline.Count
import CS330.Pipeline.Outcome
import CS330.Process.Parallel
import CS330.Process.Outputs
import CS330.Process.Pages
import CS330.RwLock.Counters
