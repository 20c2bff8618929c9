import KernelDrivers.Framework.Register
import KernelDrivers.Kernel.Basic

namespace KernelDrivers.Leds

open Framework Kernel Register

/-- The registers `GPM4CON` and `GPM4DAT`. -/
inductive Reg where
  | gpm4con
  | gpm4dat
  deriving DecidableEq

/-- The port of the LEDs: whether its page is mapped, its registers, and how many writes have
reached them. -/
structure Board where
  mapped : Bool
  con : BitVec 32
  dat : BitVec 32
  writes : Nat
  deriving DecidableEq

namespace Board

def get (b : Board) : Reg → BitVec 32
  | .gpm4con => b.con
  | .gpm4dat => b.dat

def set (b : Board) (r : Reg) (v : BitVec 32) : Board :=
  match r with
  | .gpm4con => { b with con := v, writes := b.writes + 1 }
  | .gpm4dat => { b with dat := v, writes := b.writes + 1 }

/-- There is no result of an access when the page is not mapped. -/
def ioread32 (b : Board) (r : Reg) : Option (BitVec 32) := if b.mapped then some (b.get r) else none

def iowrite32 (b : Board) (r : Reg) (v : BitVec 32) : Option Board :=
  if b.mapped then some (b.set r v) else none

/-- An 8-bit access touches the low byte of the register. -/
def ioread8 (b : Board) (r : Reg) : Option (BitVec 8) := (b.ioread32 r).map (low 8)

def iowrite8 (b : Board) (r : Reg) (v : BitVec 8) : Option Board :=
  b.iowrite32 r (putLow v (b.get r))

end Board

/-- The user's bytes of a `write` system call and the fate of their copy. -/
structure Write where
  buf : List Byte
  fate : CopyFate

namespace Miscled

def LEDON : Byte := 1

def LEDOFF : Byte := 2

/-- What `ledonoff` makes of `tmp`, which both masks promote to an `int` of 32 bits. -/
def updateTmp (cmd num : Byte) (tmp : BitVec 8) : BitVec 8 :=
  let mask : BitVec 32 := 1#32 <<< (num.toNat - 1)
  if cmd = LEDON then (tmp.setWidth 32 &&& ~~~mask).setWidth 8
  else (tmp.setWidth 32 ||| mask).setWidth 8

def ledonoff (b : Board) (cmd num : Byte) : Option Board := do
  let tmp ← b.ioread8 .gpm4dat
  b.iowrite8 .gpm4dat (updateTmp cmd num tmp)

/-- `copy_to_user(stat, tmp, 4)`: what it leaves uncopied, and the bytes of `tmp`. -/
def ledstat (b : Board) (fate : CopyFate) : Option (Nat × List Byte) := do
  let s ← b.ioread8 .gpm4dat
  let tmp := (List.range 4).map fun i =>
    if s.setWidth 32 &&& (1#32 <<< i) ≠ 0 then LEDOFF else LEDON
  return (fate.residue 4, tmp)

/-- The value returned and the bytes the user gets. A residue is not negative, so a failed copy
is not reported. -/
def demoRead (b : Board) (cnt : Nat) (fate : CopyFate) : Option (Int × List Byte) :=
  if cnt ≠ 4 then some (-einval, [])
  else do
    let (ret, stat) ← ledstat b fate
    if (ret : Int) < 0 then return (ret, [])
    return (cnt, stat.take (4 - ret))

/-- `kbuf[0]` and `kbuf[1]` after the checks of `demo_write`. -/
structure Checked where
  cmd : Byte
  num : Byte
  isCmd : ¬ (cmd ≠ LEDON ∧ cmd ≠ LEDOFF)
  isNum : ¬ (num < 1 ∨ 4 < num)

def checkKbuf (cmd num : Byte) : Except Int Checked :=
  if isCmd : cmd ≠ LEDON ∧ cmd ≠ LEDOFF then .error (-einval)
  else if isNum : num < 1 ∨ 4 < num then .error (-einval)
  else .ok ⟨cmd, num, isCmd, isNum⟩

/-- `demo_write` up to its call of `ledonoff`; an error is the value it returns. -/
def checkWrite (w : Write) : Except Int Checked :=
  if w.buf.length ≠ 2 then .error (-einval)
  else if w.fate.residue 2 ≠ 0 then .error (-eio)
  else
    let kbuf := w.fate.landed w.buf
    checkKbuf (kbuf.getD 0 0) (kbuf.getD 1 0)

def demoWrite (b : Board) (w : Write) : Option (Int × Board) :=
  match checkWrite w with
  | .error ret => some (ret, b)
  | .ok c => (ledonoff b c.cmd c.num).map fun b => (2, b)

/-- The text of the proc entry. -/
def ledProcRead (b : Board) : Option (List String) := do
  let s ← b.ioread8 .gpm4dat
  return (List.range 4).map fun i =>
    "led " ++ toString (i + 1) ++ " is " ++
      (if s.setWidth 32 &&& (1#32 <<< i) ≠ 0 then "off" else "on") ++ ".\n"

/-- The part of `demo_init` that sets up the port: the pins are outputs and the LEDs off. -/
def setupPort (b : Board) : Option Board := do
  let tmp ← b.ioread32 .gpm4con
  let b ← b.iowrite32 .gpm4con ((tmp &&& ~~~0xffff#32) ||| 0x1111#32)
  let tmp ← b.ioread8 .gpm4dat
  b.iowrite8 .gpm4dat ((tmp.setWidth 32 ||| 0xf#32).setWidth 8)

end Miscled

namespace KernelCodeV1

/-- `led_ctl_t` -/
structure LedCtl where
  lednum : Int32
  ledcmd : Int32

/-- An `int` from its bytes, the lowest one first. -/
def leInt (bytes : List Byte) : Int32 :=
  Int32.ofNat (bytes.foldr (fun byte n => byte.toNat + 256 * n) 0)

def LedCtl.ofBytes (bytes : List Byte) : LedCtl :=
  ⟨leInt (bytes.take 4), leInt ((bytes.drop 4).take 4)⟩

def ledCtr (b : Board) (lednum ledcmd : Int32) : Option (Int × Board) := do
  let tmp ← b.ioread32 .gpm4dat
  if lednum < 1 ∨ 4 < lednum then return (-einval, b)
  let mask : BitVec 32 := 1#32 <<< (lednum.toInt - 1).toNat
  if ledcmd = 1 then
    let b ← b.iowrite32 .gpm4dat (tmp &&& ~~~mask)
    return (0, b)
  else if ledcmd = 0 then
    let b ← b.iowrite32 .gpm4dat (tmp ||| mask)
    return (0, b)
  else return (-einval, b)

def demoWrite (b : Board) (w : Write) : Option (Int × Board) :=
  if w.buf.length ≠ 8 then some (-einval, b)
  else if w.fate.residue 8 ≠ 0 then some (-einval, b)
  else do
    let val := LedCtl.ofBytes (w.fate.landed w.buf)
    let (ret, b) ← ledCtr b val.lednum val.ledcmd
    if ret < 0 then return (ret, b)
    return (8, b)

/-- The text of the proc entry. -/
def procRead (b : Board) : Option (List String) := do
  let tmp ← b.ioread32 .gpm4dat
  return (List.range 4).map fun i =>
    if tmp &&& (1#32 <<< i) ≠ 0 then "led " ++ toString (i + 1) ++ " is off.\n"
    else "led " ++ toString (i + 1) ++ " is on.\n"

/-- The part of `demo_init` that sets up the port: the pins are outputs and the LEDs off. -/
def setupPort (b : Board) : Option Board := do
  let tmp ← b.ioread32 .gpm4con
  let b ← b.iowrite32 .gpm4con ((tmp &&& ~~~0xffff#32) ||| 0x1111#32)
  let tmp ← b.ioread32 .gpm4dat
  b.iowrite32 .gpm4dat (tmp ||| 0xf#32)

end KernelCodeV1

end KernelDrivers.Leds
