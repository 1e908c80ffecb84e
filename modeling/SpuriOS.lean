import SpuriOS.Console.Input
import SpuriOS.Console.Shell
import SpuriOS.Debug
import SpuriOS.Device
import SpuriOS.Device.Buffers
import SpuriOS.Device.Confinement
import SpuriOS.Device.Disk
import SpuriOS.Device.Opens
import SpuriOS.Device.Refusals
import SpuriOS.Device.Release
import SpuriOS.Ext2.Slices
import SpuriOS.Ext2.Listing
import SpuriOS.Ext2.Lookups
import SpuriOS.Ext2.Paths
import SpuriOS.Hdd.Requests
import SpuriOS.Memkrypt.Stream
import SpuriOS.Mm.Accounting
import SpuriOS.Mm.Cleanup
import SpuriOS.Mm.Leaks
import SpuriOS.Mm.Shared
import SpuriOS.Mm.Forking
import SpuriOS.Mm.Images
import SpuriOS.Mm.Fresh
import SpuriOS.Mm.Isolation
import SpuriOS.Mm.Owned
import SpuriOS.Mm.Frames
import SpuriOS.Mm.Setup
import SpuriOS.Mm.Transparent
import SpuriOS.Mm.Words
import SpuriOS.SchedShares
import SpuriOS.SerialReception
import SpuriOS.Vga.Calls
import SpuriOS.Vga.Printers
import SpuriOS.Vga.Reads
import SpuriOS.Vga.Terminal
import SpuriOS.Pipe.Stream
import SpuriOS.Pipe.Wakeups
import SpuriOS.Printf.Bounds
import SpuriOS.Printf.Digits
import SpuriOS.Loader.Placement
import SpuriOS.Loader.Semaphores
import SpuriOS.Loader.Sleepers
import SpuriOS.Switch.Runs
import SpuriOS.Krypt.Orders
