import OSLabs.Lib.Run
import OSLabs.Libco.Model
import OSLabs.Libco.Step
import OSLabs.Libco.Status
import OSLabs.Libco.ExactlyOnce
import OSLabs.Libco.Agreement
import OSLabs.Lib.SlotArray
import OSLabs.Libco.Registry
import OSLabs.Libco.Lifetime
import OSLabs.Libco.Frames
import OSLabs.Lib.Forest
import OSLabs.Pstree.Links
import OSLabs.Pstree.Construct
import OSLabs.Pstree.Snapshot
import OSLabs.Pstree.Print
import OSLabs.Pstree.Layout
import OSLabs.Lib.Tables
import OSLabs.Vme.Model
import OSLabs.Lib.Masks
import OSLabs.Vme.Words
import OSLabs.Vme.Rooted
import OSLabs.Vme.Ptwalk
import OSLabs.Vme.Spaces
import OSLabs.Vme.Protect
import OSLabs.Vme.Map
import OSLabs.Vme.PageWalk
import OSLabs.Vme.Boot
import OSLabs.Vme.System
import OSLabs.Vme.Refinement
import OSLabs.Vme.Reclaim
import OSLabs.Lib.Chain
import OSLabs.Native.Foreach
import OSLabs.Native.Links
import OSLabs.Native.Agreement
import OSLabs.Native.Switching
import OSLabs.Gpu.Model
import OSLabs.Gpu.Fbdraw
import OSLabs.Gpu.Pictures
import OSLabs.Input.Model
import OSLabs.Input.Queue
import OSLabs.Audio.Model
import OSLabs.Audio.Playing
import OSLabs.Boot.Model
import OSLabs.Boot.Loading
import OSLabs.Boot.Image
import OSLabs.Lib.Insertion
import OSLabs.Pstree.Reference
import OSLabs.Pstree.Ordered
import OSLabs.Pstree.ByName
import OSLabs.Pstree.StatLine
import OSLabs.Pstree.Failing
import OSLabs.Pstree.Survival
import OSLabs.Klib.Model
import OSLabs.Klib.Numbers
import OSLabs.Lib.Grid
import OSLabs.Pstree.Branches
import OSLabs.Pstree.Termination
import OSLabs.Lib.Growth
import OSLabs.Pstree.Incremental
import OSLabs.Gpu.Clipping
import OSLabs.Pstree.CommandLine
import OSLabs.Gpu.Canvas
import OSLabs.Gpu.CanvasTree
import OSLabs.Gpu.Rendering
import OSLabs.Klib.Int64
import OSLabs.Lib.Division
import OSLabs.Lib.Halves
import OSLabs.Lib.Zeros
import OSLabs.Klib.Counting
import OSLabs.Klib.Division
import OSLabs.Lib.Signs
import OSLabs.Klib.SignedDivision
import OSLabs.Lib.Copies
import OSLabs.Gpu.Painting
import OSLabs.Lib.ByteMemory
import OSLabs.Trap.Machine
import OSLabs.Trap.Model
import OSLabs.Trap.Resuming32
import OSLabs.Trap.Resuming64
import OSLabs.Trap.Threads
import OSLabs.Trap.Threads32
import OSLabs.Trap.Threads64
import OSLabs.Mpe.Finishing
import OSLabs.Mpe.Forking
import OSLabs.Disk.Model
import OSLabs.Lib.Storage
import OSLabs.Disk.Blocks
import OSLabs.Disk.Loader
import OSLabs.Disk.Native
import OSLabs.Libco.TestProgram
