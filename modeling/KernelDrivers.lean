import KernelDrivers.Framework.Machine
import KernelDrivers.Framework.FixedBuffer
import KernelDrivers.Framework.BoundedFifo
import KernelDrivers.Framework.Linearizability
import KernelDrivers.Framework.ResourceLedger
import KernelDrivers.Kernel.Basic
import KernelDrivers.Kbufdrv.Device
import KernelDrivers.Kbufdrv.Fifo
import KernelDrivers.Kbufdrv.Chardrv
import KernelDrivers.Kbufdrv.Blocking
import KernelDrivers.Kbufdrv.Load
import KernelDrivers.ExclusiveOpen.Flag
import KernelDrivers.ExclusiveOpen.Release
import KernelDrivers.Keys.Debounce
import KernelDrivers.Keys.Reader
import KernelDrivers.Kbufdrv.Wakeup
import KernelDrivers.Kbufdrv.Steps
import KernelDrivers.Kbufdrv.Locked
import KernelDrivers.Kbufdrv.Unlocked
import KernelDrivers.Framework.Deferred
import KernelDrivers.Irq.BottomHalf
import KernelDrivers.Irq.Deferral
import KernelDrivers.Irq.Unload
import KernelDrivers.Keys.Unload
import KernelDrivers.Touch.Device
import KernelDrivers.Touch.Balance
import KernelDrivers.Touch.Lifecycle
import KernelDrivers.Dlist.Device
import KernelDrivers.Dlist.Fifo
import KernelDrivers.Dlist.Concurrent
import KernelDrivers.Spinlock.Device
import KernelDrivers.Spinlock.Triples
import KernelDrivers.Kbufdrv.Publish
import KernelDrivers.Dlist.Writes
import KernelDrivers.Kbufdrv.Ioctl
import KernelDrivers.Keys.Load
import KernelDrivers.Procfs.Store
import KernelDrivers.Procfs.Demo
import KernelDrivers.Procfs.Proc
import KernelDrivers.Framework.TextPage
import KernelDrivers.Procfs.Read
import KernelDrivers.Procfs.Concurrent
import KernelDrivers.Kbufdrv.Chunks
import KernelDrivers.Kbufdrv.Variants
import KernelDrivers.Touch.Position
import KernelDrivers.Keys.Parity
import KernelDrivers.Framework.Register
import KernelDrivers.Leds.Device
import KernelDrivers.Leds.Commands
import KernelDrivers.Leds.Concurrent
import KernelDrivers.Framework.Unwinding
import KernelDrivers.Leds.Lifecycle
import KernelDrivers.GpioLed.Load
import KernelDrivers.Irq.Shared
import KernelDrivers.DriverModel.Bus
import KernelDrivers.Framework.WrappingClock
import KernelDrivers.Time.Delay
import KernelDrivers.Buzzer.Ioctl
import KernelDrivers.Time.Elapsed
import KernelDrivers.Dlist.Exit
import KernelDrivers.Procfs.Exit
import KernelDrivers.Framework.CriticalSection
import KernelDrivers.LockDemo.FullFlag
import KernelDrivers.LockDemo.Threads
import KernelDrivers.Spinlock.Plain
import KernelDrivers.ExclusiveOpen.Trylock
import KernelDrivers.Input.Device
import KernelDrivers.Input.Packets
import KernelDrivers.DriverModel.Hotplug
import KernelDrivers.Input.KeyEvents
import KernelDrivers.Kbufdrv.Server
import KernelDrivers.Leds.Programs
import KernelDrivers.Dlist.Program
import KernelDrivers.Keys.Program
import KernelDrivers.Framework.ForkJoin
import KernelDrivers.Kbufdrv.Stress
import KernelDrivers.Buzzer.Program
import KernelDrivers.Kbufdrv.Programs
import KernelDrivers.Framework.Removal
import KernelDrivers.Platform.Removal
import KernelDrivers.Framework.KernelTimer
import KernelDrivers.Time.Timer
import KernelDrivers.Framework.ForkedCalls
import KernelDrivers.Spinlock.Program
