import KernelDrivers.Framework.Deferred
import KernelDrivers.Kernel.Basic

namespace KernelDrivers.Touch

open Framework Kernel

/-- The interrupt handler `do_ft5206_top` and the work `do_ft5206_bh` that it schedules. -/
inductive Obj where
  | top
  | bottom
  deriving DecidableEq

inductive InputEvent where
  | absX (value : Nat)
  | absY (value : Nat)
  | absPressure (value : Nat)
  | btnTouch (value : Nat)
  | synReport
  deriving DecidableEq

/-- The 31 registers of the controller; plain `char` has no sign on ARM. -/
abbrev Regval := Fin 31 → Byte

/-- What `i2c_master_recv` returns, and what it has put into `regval`. -/
structure Recv where
  ret : Int
  regval : Regval

/-- Statements of the handlers, of `ft5206_probe` and of `ft5206_remove`; `ok` says whether an
acquisition succeeds. `request_irq` and `free_irq` start and stop the interrupt handler. -/
inductive Stmt where
  | scheduleWork
  | disableIrqNosync
  | i2cMasterRecv
  | inputReport (event : InputEvent)
  | inputSync
  | enableIrq
  | kzalloc (ok : Bool)
  | i2cSetClientdata
  | gpioRequest (ok : Bool)
  | gpioToIrq
  | inputAllocateDevice (ok : Bool)
  | setBits
  | inputRegisterDevice (ok : Bool)
  | initWork
  | inputFreeDevice
  | gpioFree
  | kfree
  | inputUnregisterDevice
  deriving DecidableEq

inductive Mem where
  | none
  | live
  | freed
  deriving DecidableEq

/-- What `tsdev` points to. -/
inductive Tsdev where
  | null
  | allocated
  | registered
  | freed
  deriving DecidableEq

/-- The `ft5206_pri`, whether its work is initialised, its input device, and the gpio. -/
structure Owned where
  mem : Mem
  workReady : Bool
  tsdev : Tsdev
  gpio : Bool
  deriving DecidableEq

namespace Owned

def nothing : Owned := ⟨.none, false, .null, false⟩

/-- All a probe acquires beside the interrupt. -/
def probed : Owned := ⟨.live, true, .registered, true⟩

/-- Whether a statement finds what it uses. Only the handlers need a registered device. -/
def allows (o : Owned) : Stmt → Bool
  | .kzalloc _ => true
  | .scheduleWork => o.mem == .live && o.workReady
  | .inputReport _ => o.mem == .live && o.tsdev == .registered
  | .inputSync => o.mem == .live && o.tsdev == .registered
  | .setBits => o.mem == .live && (o.tsdev == .allocated || o.tsdev == .registered)
  | .inputRegisterDevice _ => o.mem == .live && o.tsdev == .allocated
  | .inputFreeDevice => o.mem == .live && o.tsdev == .allocated
  | .inputUnregisterDevice => o.mem == .live && o.tsdev == .registered
  | .gpioFree => o.mem == .live && o.gpio
  | _ => o.mem == .live

def after (o : Owned) : Stmt → Owned
  | .kzalloc ok => if ok then { o with mem := .live, workReady := false, tsdev := .null } else o
  | .gpioRequest ok => if ok then { o with gpio := true } else o
  | .inputAllocateDevice ok => { o with tsdev := if ok then .allocated else .null }
  | .inputRegisterDevice ok => if ok then { o with tsdev := .registered } else o
  | .initWork => { o with workReady := true }
  | .inputFreeDevice => { o with tsdev := .freed }
  | .inputUnregisterDevice => { o with tsdev := .freed }
  | .gpioFree => { o with gpio := false }
  | .kfree => { o with mem := .freed }
  | _ => o

end Owned

/-- The driver's state: what it owns, the disable depth of its interrupt, the events it has
reported, and the statements that did not find what they use. -/
structure Ts where
  own : Owned
  depth : Nat
  events : List InputEvent
  faults : List Stmt

def Ts.fresh (own : Owned) : Ts := ⟨own, 0, [], []⟩

/-- `disable_irq_nosync` and `enable_irq`. -/
def depthAfter (depth : Nat) : Stmt → Nat
  | .disableIrqNosync => depth + 1
  | .enableIrq => depth - 1
  | _ => depth

def reported : Stmt → List InputEvent
  | .inputReport event => [event]
  | .inputSync => [.synReport]
  | _ => []

def exec (c : Stmt) (ts : Ts) : Ts where
  own := ts.own.after c
  depth := depthAfter ts.depth c
  events := ts.events ++ reported c
  faults := if ts.own.allows c then ts.faults else ts.faults ++ [c]

/-- What the two versions of the driver report about the registers. -/
structure Driver where
  reports : Regval → List InputEvent

/-- `(regval[3]>>6)&0x3`. -/
def flag (regval : Regval) : Nat := ((regval 3).toNat >>> 6) &&& 3

def xPos (regval : Regval) : Nat := (((regval 3).toNat &&& 0xf) <<< 8) ||| (regval 4).toNat

def yPos (regval : Regval) : Nat := (((regval 5).toNat &&& 0xf) <<< 8) ||| (regval 6).toNat

/-- kernel_code_v1/ts. -/
def kernelCodeV1 : Driver where
  reports regval :=
    if flag regval = 0 then
      [.absX (xPos regval), .absY (yPos regval), .absPressure 1, .btnTouch 1]
    else if flag regval = 1 then [.absPressure 0, .btnTouch 0]
    else []

def laomits : Driver where
  reports regval :=
    if flag regval = 0 then [.absPressure 1, .btnTouch 1]
    else if flag regval = 1 then [.absPressure 0, .btnTouch 0]
    else if flag regval = 2 then [.absX (xPos regval), .absY (yPos regval)]
    else []

def doFt5206Top : List Stmt := [.scheduleWork, .disableIrqNosync]

def doFt5206Bh (D : Driver) (recv : Recv) : List Stmt :=
  if recv.ret ≠ 31 then [.i2cMasterRecv]
  else .i2cMasterRecv :: (D.reports recv.regval).map .inputReport ++ [.inputSync, .enableIrq]

/-- The handlers of the driver; `gate` says at which disable depths an interrupt is
delivered. -/
def handlers (D : Driver) (gate : Nat → Bool) : Handlers Obj Stmt Ts Recv where
  body o _ recv :=
    match o with
    | .top => doFt5206Top
    | .bottom => doFt5206Bh D recv
  exec := exec
  queues
    | .scheduleWork => some .bottom
    | _ => none
  raises ts o := o == .top && gate ts.depth
  cancels _ := false

end KernelDrivers.Touch
