import HenPlugins.Library.Trim
import HenPlugins.Library.CString
import HenPlugins.Library.Stream
import HenPlugins.Library.Keyed
import HenPlugins.Library.Run
import HenPlugins.Library.Replay
import HenPlugins.Library.Prog
import HenPlugins.Library.Number
import HenPlugins.Library.File
import HenPlugins.Library.LittleEndian
import HenPlugins.Library.Memory
import HenPlugins.Library.Reads
import HenPlugins.Library.CharArray
import HenPlugins.Library.Rewriting
import HenPlugins.Library.Stdio
import HenPlugins.Library.PathName
import HenPlugins.Library.Stride
import HenPlugins.Library.Encoding
import HenPlugins.Library.Decoder
import HenPlugins.Path
import HenPlugins.Ini.Basic
import HenPlugins.Ini.Load
import HenPlugins.Ini.Save
import HenPlugins.Ini.Access
import HenPlugins.Ini.Alloc
import HenPlugins.Ini.SaveFile
import HenPlugins.Ini.Theorems.Line
import HenPlugins.Ini.Theorems.Reload
import HenPlugins.Ini.Theorems.Lookup
import HenPlugins.Ini.Theorems.RoundTrip
import HenPlugins.Ini.Theorems.Load
import HenPlugins.Ini.Theorems.Set
import HenPlugins.Ini.Theorems.Store
import HenPlugins.Ini.Theorems.Comments
import HenPlugins.Ini.Theorems.Entry
import HenPlugins.Ini.Theorems.Indent
import HenPlugins.Ini.Theorems.Inline
import HenPlugins.Ini.Theorems.Parsed
import HenPlugins.Ini.Theorems.Survive
import HenPlugins.Ini.Theorems.Invent
import HenPlugins.Ini.Theorems.SaveFile
import HenPlugins.Ini.Theorems.Alloc
import HenPlugins.Settings.Basic
import HenPlugins.Settings.Theorems.Write
import HenPlugins.Settings.Theorems.Read
import HenPlugins.Settings.Theorems.Toggle
import HenPlugins.Settings.Replace
import HenPlugins.Settings.Theorems.Replace
import HenPlugins.Settings.Theorems.Root
import HenPlugins.Loader.Appinfo
import HenPlugins.Loader.Basic
import HenPlugins.Loader.Theorems.Loop
import HenPlugins.Loader.Theorems.Progress
import HenPlugins.Loader.Theorems.Isolation
import HenPlugins.Loader.Theorems.Agreement
import HenPlugins.Loader.Theorems.Order
import HenPlugins.Memory.Basic
import HenPlugins.Memory.Pattern
import HenPlugins.Memory.Scan
import HenPlugins.Memory.Theorems.Scan
import HenPlugins.Memory.InternalCall
import HenPlugins.Memory.Theorems.InternalCall
import HenPlugins.Memory.Trampoline
import HenPlugins.Memory.Theorems.Jump
import HenPlugins.Memory.Theorems.Filler
import HenPlugins.Memory.Theorems.Trampoline
import HenPlugins.Memory.Cave
import HenPlugins.Memory.Theorems.Cave
import HenPlugins.Memory.Theorems.Relative
import HenPlugins.Memory.Hook
import HenPlugins.Memory.Theorems.Hook
import HenPlugins.Memory.ChunkScan
import HenPlugins.Memory.Theorems.ChunkScan
import HenPlugins.Memory.Theorems.Signature
import HenPlugins.Memory.Theorems.Bounds
import HenPlugins.Memory.ChunkRead
import HenPlugins.Memory.Theorems.ChunkRead
import HenPlugins.Memory.InstructionSize
import HenPlugins.Memory.Theorems.InstructionSize
import HenPlugins.Memory.PatternCursor
import HenPlugins.Memory.Theorems.PatternCursor
import HenPlugins.Klog.Basic
import HenPlugins.Klog.Theorems.Delivery
import HenPlugins.Klog.Theorems.Release
import HenPlugins.Ftp.Basic
import HenPlugins.Ftp.Abspath
import HenPlugins.Ftp.Cmd
import HenPlugins.Ftp.Server
import HenPlugins.Ftp.Theorems.Frame
import HenPlugins.Ftp.Theorems.Reply
import HenPlugins.Ftp.Theorems.Session
import HenPlugins.Ftp.Theorems.Log
import HenPlugins.Ftp.Theorems.Rest
import HenPlugins.Ftp.Theorems.DataMode
import HenPlugins.Ftp.Theorems.Rename
import HenPlugins.Ftp.Theorems.Stor
import HenPlugins.Ftp.Theorems.Transfer
import HenPlugins.Ftp.Theorems.Readline
import HenPlugins.Ftp.Theorems.Descriptors
import HenPlugins.Ftp.Theorems.Directory
import HenPlugins.Ftp.Theorems.Listing
import HenPlugins.Ftp.Theorems.Abspath
import HenPlugins.Package.Basic
import HenPlugins.Package.Theorems.Path
import HenPlugins.Hde.Table
import HenPlugins.Hde.Basic
import HenPlugins.Hde.Theorems.Table
import HenPlugins.Hde.Theorems.Head
import HenPlugins.Hde.Theorems.Lock
import HenPlugins.Hde.Theorems.Layout
import HenPlugins.Hde.Theorems.Local
import HenPlugins.Hde.Theorems.Disasm
import HenPlugins.Memory.Theorems.Relocated
import HenPlugins.Library.ProgSum
import HenPlugins.Library.Pool
import HenPlugins.PluginServer.Basic
import HenPlugins.Klog.Server
import HenPlugins.Ftp.Listener
import HenPlugins.PluginServer.Inventory
import HenPlugins.Klog.Theorems.Server
import HenPlugins.Ftp.Theorems.Listener
import HenPlugins.Ftp.Theorems.Names
import HenPlugins.PluginServer.Process
import HenPlugins.PluginServer.Theorems.Process
import HenPlugins.PluginServer.Theorems.Notify
