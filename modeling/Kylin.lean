import Kylin.Lib.Run
import Kylin.Lib.Buffer
import Kylin.Arch.Word
import Kylin.Math.Val
import Kylin.Math.Ring
import Kylin.Math.RingThreads
import Kylin.Math.Fifo
import Kylin.Lib.Chain
import Kylin.Lib.Heap
import Kylin.Math.List
import Kylin.Math.Rb
import Kylin.Lib.OrderedSet
import Kylin.Timer.Timer
import Kylin.Timer.Schedule
import Kylin.Ipc.Usock
import Kylin.Ipc.UsockServer
import Kylin.Ipc.UsockClient
import Kylin.Lib.Buckets
import Kylin.Math.Map
import Kylin.Core.Module
import Kylin.Timer.Lock
import Kylin.Core.ModuleOrder
import Kylin.Core.ModuleCount
import Kylin.Ipc.Shm
import Kylin.Ipc.ShmThreads
import Kylin.Ddb.Ddb
import Kylin.Math.Set
import Kylin.Event.Event
import Kylin.Event.Select
import Kylin.Event.Epoll
import Kylin.Lib.Plugins
import Kylin.Event.Plugin
import Kylin.Socket.Plugin
import Kylin.Arch.Rwlock
import Kylin.Math.Lifo
import Kylin.Math.String
import Kylin.Math.StringCat
import Kylin.Lib.Compare
import Kylin.Math.StringCompare
import Kylin.Math.StringSearch
import Kylin.Lib.BufferLoop
import Kylin.Math.SetArray
import Kylin.Math.SetOrder
import Kylin.Math.SetIterate
import Kylin.Lib.Ensures
import Kylin.Math.RbRemove
import Kylin.Lib.SearchTree
import Kylin.Thread.Thread
import Kylin.Socket.Conn
import Kylin.Log.Buffer
import Kylin.Log.Log
import Kylin.Core.Elf
import Kylin.Core.ElfSymbols
import Kylin.Math.RbLinks
import Kylin.Lib.Rebalance
import Kylin.Math.RbColor
import Kylin.Math.RbUnlink
import Kylin.Lib.Walk
import Kylin.Math.RbSearch
import Kylin.Math.RbDestroy
import Kylin.Math.MapFrame
import Kylin.Lib.Migration
import Kylin.Math.Index
import Kylin.Math.Rehash
import Kylin.Math.ListLinks
import Kylin.Math.ListClear
import Kylin.Math.Bitmap
import Kylin.Math.BitmapGuard
import Kylin.Math.BitmapShift
import Kylin.Math.BitmapOps
import Kylin.Math.BitmapFull
import Kylin.Lib.Cursor
import Kylin.Math.IndexMap
import Kylin.Math.IndexRemove
import Kylin.Math.Iterate
import Kylin.Math.MapClear
import Kylin.Math.MapResize
import Kylin.Lib.Loop
import Kylin.Lib.Words
import Kylin.Event.SelectProc
import Kylin.Event.Backend
import Kylin.Math.FifoChunks
import Kylin.Math.FifoBounds
import Kylin.Ipc.UsockLoops
import Kylin.Ipc.UsockRuns
import Kylin.Ipc.UsockAccept
import Kylin.Lib.Descent
import Kylin.Core.ModuleWalk
import Kylin.Core.ModuleEnds
import Kylin.Core.ModuleFail
import Kylin.Core.ModuleConf
import Kylin.Lib.Endian
import Kylin.Lib.Memory
import Kylin.Arch.PowOfTwo
import Kylin.Arch.Memcpy
import Kylin.Utils.Hash
import Kylin.Utils.Addr
import Kylin.Utils.AddrMask
import Kylin.Utils.HostTuple
import Kylin.Utils.MacAddr
import Kylin.Math.ValOrder
import Kylin.Lib.Directory
import Kylin.Ddb.DdbLog
import Kylin.Lib.Depth
import Kylin.Math.RbHpi
import Kylin.Math.RbHpiRun
import Kylin.Lib.Slots
import Kylin.Math.ListHpi
import Kylin.Math.ListHpiCells
import Kylin.Math.ListHpiRun
import Kylin.Lib.Mutex
import Kylin.Arch.Spinlock
import Kylin.Arch.RwlockData
import Kylin.Math.StringScan
import Kylin.Event.Dispatch
import Kylin.Event.EpollPass
import Kylin.Event.PollPass
import Kylin.Utils.Hexdump
import Kylin.Lib.Lifetime
import Kylin.Core.ModuleList
import Kylin.Core.ModuleUnload
import Kylin.Lib.BitString
import Kylin.Lib.Refind
import Kylin.Arch.Bitops
import Kylin.Ddb.Service
import Kylin.Log.Pipeline
