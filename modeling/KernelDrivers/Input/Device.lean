import KernelDrivers.Framework.Machine
import KernelDrivers.Keys.Device
import Mathlib.Data.Fin.VecNotation

namespace KernelDrivers.Input

open Framework Keys

/-- `struct input_event` without its time. -/
structure InputEvent where
  type : Nat
  code : Nat
  value : Int
  deriving DecidableEq

def EV_SYN : Nat := 0
def EV_KEY : Nat := 1
def EV_REL : Nat := 2
def EV_ABS : Nat := 3

def SYN_REPORT : Nat := 0
def SYN_MT_REPORT : Nat := 2

def REL_X : Nat := 0
def REL_Y : Nat := 1

def ABS_X : Nat := 0x00
def ABS_Y : Nat := 0x01
def ABS_PRESSURE : Nat := 0x18
def ABS_MT_POSITION_X : Nat := 0x35
def ABS_MT_POSITION_Y : Nat := 0x36
def ABS_MT_PRESSURE : Nat := 0x3a

def KEY_ESC : Nat := 1
def KEY_SPACE : Nat := 57
def KEY_UP : Nat := 103
def KEY_LEFT : Nat := 105
def KEY_RIGHT : Nat := 106
def KEY_DOWN : Nat := 108
def BTN_TOUCH : Nat := 0x14a

def inputReportAbs (code : Nat) (value : Int) : InputEvent := ⟨EV_ABS, code, value⟩

/-- The value is reported as `!!value`. -/
def inputReportKey (code : Nat) (value : Int) : InputEvent :=
  ⟨EV_KEY, code, if value = 0 then 0 else 1⟩

def inputSync : InputEvent := ⟨EV_SYN, SYN_REPORT, 0⟩

def inputMtSync : InputEvent := ⟨EV_SYN, SYN_MT_REPORT, 0⟩

/-- `struct tspos`, a pair of `ares`. -/
structure Pos where
  x : Nat
  y : Nat
  deriving DecidableEq

/-- The statements `x++; x %= 800; y++; y %= 480`. -/
def Pos.next (p : Pos) : Pos := ⟨(p.x + 1) % 800, (p.y + 1) % 480⟩

/-- What the drivers that play a touch panel do not share: the first positions, the codes they
report, and whether a point ends with `input_mt_sync` and a packet reports `BTN_TOUCH`; and what
they tell the input core that they report. -/
structure Panel where
  axis : List Pos
  codeX : Nat
  codeY : Nat
  codePressure : Nat
  mt : Bool
  btn : Bool
  evbit : List Nat
  absbit : List Nat
  keybit : List Nat
  /-- `input_set_abs_params`: the code, the minimum and the maximum. -/
  absParams : List (Nat × Int × Int)

/-- input/1point_ts/key.c -/
def onePoint : Panel where
  axis := [⟨200, 300⟩]
  codeX := ABS_X
  codeY := ABS_Y
  codePressure := ABS_PRESSURE
  mt := false
  btn := false
  evbit := [EV_ABS]
  absbit := [ABS_X, ABS_Y, ABS_PRESSURE]
  keybit := []
  absParams := [(ABS_X, 0, 799), (ABS_Y, 0, 479), (ABS_PRESSURE, 0, 1)]

/-- input/5point_mt/key.c -/
def fivePoint : Panel where
  axis := [⟨200, 300⟩, ⟨159, 299⟩, ⟨12, 33⟩, ⟨66, 79⟩, ⟨97, 354⟩]
  codeX := ABS_MT_POSITION_X
  codeY := ABS_MT_POSITION_Y
  codePressure := ABS_MT_PRESSURE
  mt := true
  btn := false
  evbit := [EV_ABS]
  absbit := [ABS_MT_POSITION_X, ABS_MT_POSITION_Y, ABS_MT_PRESSURE]
  keybit := []
  absParams := []

/-- kernel_code_v1/demo_ts/ts.c -/
def demoTs : Panel where
  axis := [⟨200, 300⟩]
  codeX := ABS_X
  codeY := ABS_Y
  codePressure := ABS_PRESSURE
  mt := false
  btn := true
  evbit := [EV_ABS, EV_KEY]
  absbit := [ABS_X, ABS_Y, ABS_PRESSURE]
  keybit := [BTN_TOUCH]
  absParams := [(ABS_X, 0, 799), (ABS_Y, 0, 479), (ABS_PRESSURE, 0, 1)]

/-- kernel_code_v1/demo_ts/mt.c -/
def demoMt : Panel where
  axis := [⟨200, 300⟩, ⟨300, 400⟩, ⟨400, 440⟩]
  codeX := ABS_MT_POSITION_X
  codeY := ABS_MT_POSITION_Y
  codePressure := ABS_MT_PRESSURE
  mt := true
  btn := true
  evbit := [EV_ABS, EV_KEY]
  absbit := [ABS_MT_POSITION_X, ABS_MT_POSITION_Y, ABS_MT_PRESSURE]
  keybit := [BTN_TOUCH]
  absParams := []

inductive PanelDriver where
  | onePoint
  | fivePoint
  | demoTs
  | demoMt

def PanelDriver.panel : PanelDriver → Panel
  | .onePoint => Input.onePoint
  | .fivePoint => Input.fivePoint
  | .demoTs => Input.demoTs
  | .demoMt => Input.demoMt

/-- The counters of the keys, the positions, and the events reported so far. -/
structure Ts where
  cnt : Key → Int32
  axis : List Pos
  stream : List InputEvent

namespace Panel

variable (D : Panel)

def point (p : Pos) : List InputEvent :=
  [inputReportAbs D.codeX p.x, inputReportAbs D.codeY p.y] ++ if D.mt then [inputMtSync] else []

def ending (value : Int) : List InputEvent :=
  inputReportAbs D.codePressure value ::
    (if D.btn then [inputReportKey BTN_TOUCH value] else []) ++ [inputSync]

/-- `do_bh_key` of input/1point_ts and input/5point_mt, `do_timer` of demo_ts. -/
def event (ts : Ts) (key : Key) : Ts :=
  let cnt := Function.update ts.cnt key (ts.cnt key + 1)
  if cnt key % 2 ≠ 0 then
    let axis := ts.axis.map Pos.next
    ⟨cnt, axis, ts.stream ++ (axis.flatMap D.point ++ D.ending 1)⟩
  else ⟨cnt, ts.axis, ts.stream ++ D.ending 0⟩

/-- Handled key events, one after the other. -/
def machine : Machine Ts Key := ⟨⟨fun _ => 0, D.axis, []⟩, D.event⟩

end Panel

/-- What the drivers that play a keyboard do not share: the codes of their keys. -/
structure Keyboard where
  code : Key → Nat

/-- input/keys/key.c -/
def inputKeys : Keyboard := ⟨![KEY_LEFT, KEY_RIGHT, KEY_SPACE, KEY_ESC]⟩

/-- kernel_code_v1/inputsubsys_keys/key.c -/
def subsysKeys : Keyboard := ⟨![KEY_UP, KEY_DOWN, KEY_LEFT, KEY_RIGHT]⟩

structure Kbd where
  cnt : Key → Int32
  stream : List InputEvent

namespace Keyboard

variable (D : Keyboard)

/-- `do_bh_key` of input/keys, `do_timer` of inputsubsys_keys. -/
def event (kbd : Kbd) (key : Key) : Kbd :=
  let cnt := Function.update kbd.cnt key (kbd.cnt key + 1)
  ⟨cnt, kbd.stream ++ [inputReportKey (D.code key) (cnt key % 2).toInt, inputSync]⟩

def machine : Machine Kbd Key := ⟨⟨fun _ => 0, []⟩, D.event⟩

end Keyboard

/-- The remainder of a count is zero at every second event, also behind the wrap. -/
theorem succ_mod_two_ne_zero (cnt : Int32) : (cnt + 1) % 2 ≠ 0 ↔ cnt % 2 = 0 := by
  have hsucc := succ_mod_two cnt
  have hmod : (cnt % 2).toInt = cnt.toInt.tmod 2 := by
    rw [Int32.toInt_mod]
    rfl
  have hzero (x : Int32) : x = 0 ↔ x.toInt = 0 := by
    rw [← Int32.toInt_inj]
    rfl
  rw [ne_eq, hzero, hzero, hsucc, hmod, tmod_two]
  split
  · rename_i hodd
    simp [hodd]
    split <;> omega
  · rename_i heven
    have h0 : cnt.toInt % 2 = 0 := by omega
    simp [h0]
    split <;> omega

end KernelDrivers.Input
