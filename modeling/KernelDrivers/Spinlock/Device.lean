import KernelDrivers.Framework.Machine
import Mathlib.Data.List.Basic

namespace KernelDrivers.Spinlock

open Framework

/-- How a processor keeps interrupts, or bottom halves, away from itself: the values of its
mask, and what `disable` and the `restore` that belongs to it do to the mask. -/
structure Masking (μ : Type) where
  start : μ
  on : μ → Bool
  disable : μ → μ
  /-- `restore saved now`, `saved` being the mask that `disable` found. -/
  restore : μ → μ → μ
  off : ∀ m, on (disable m) = false
  undo : ∀ m, restore m (disable m) = m

/-- `local_irq_save` and `local_irq_restore`: the mask is put aside in `flags`. -/
def irqsave : Masking Bool where
  start := true
  on := id
  disable _ := false
  restore flags _ := flags
  off _ := rfl
  undo _ := rfl

/-- `local_bh_disable` and `local_bh_enable`, which count. -/
def bh : Masking Nat where
  start := 0
  on count := count == 0
  disable count := count + 1
  restore _ count := count - 1
  off _ := rfl
  undo _ := rfl

def OUT_STRING_CNT : Nat := 3

/-- The places in `print_string`: the two halves of `spin_lock_irqsave` or `spin_lock_bh`,
`printk` and `g_count++` in round `i`, and the two halves of the unlocking. -/
inductive Pc where
  | disable
  | spin
  | printk (i : Nat)
  | countUp (i : Nat)
  | unlock
  | restore
  | ret
  deriving DecidableEq

/-- Between the acquisition and the release of the lock. -/
def Pc.holds : Pc → Bool
  | .printk _ => true
  | .countUp _ => true
  | .unlock => true
  | _ => false

/-- Between the disabling and the restoring of the mask. -/
def Pc.masked : Pc → Bool
  | .disable => false
  | .ret => false
  | _ => true

/-- A call of `print_string`: its number, what it prints and the flags it has saved; and for
the handler that makes it the mask that it interrupted, and whether it is itself masked. -/
structure Frame (μ : Type) where
  pc : Pc
  call : Nat
  str : String
  flags : μ
  outer : μ
  shielded : Bool

/-- A processor with its contexts, the one that runs first and those it interrupts behind. -/
structure Cpu (μ : Type) where
  stack : List (Frame μ)
  mask : μ

structure Line where
  count : Int32
  str : String
  call : Nat
  deriving DecidableEq

abbrev Key := Fin 4

structure System (C μ : Type) where
  locked : Bool
  gCount : Int32
  log : List Line
  cnt : Key → Int32
  calls : Nat
  cpu : C → Cpu μ

inductive Act (C : Type) where
  /-- A process calls `spin_ioctl` with a string. -/
  | spinIoctl (c : C) (arg : String)
  /-- The interrupt of a key, or the tasklet for it, comes to a processor; `shielded` says
  whether its handler keeps further ones away. -/
  | handler (c : C) (key : Key) (shielded : Bool)
  | advance (c : C)

def irqname (key : Key) : String := "key" ++ toString (key.val + 1)

/-- `snprintf(kbuf, SZ_64, "%s is %s!\n", ..)`. -/
def keyText (key : Key) (cnt : Int32) : String :=
  irqname key ++ " is " ++ (if cnt % 2 ≠ 0 then "down" else "up") ++ "!\n"

namespace System

variable {C μ : Type} [DecidableEq C] (V : Masking μ) (s : System C μ)

def setCpu (c : C) (stack : List (Frame μ)) (mask : μ) : System C μ :=
  { s with cpu := Function.update s.cpu c ⟨stack, mask⟩ }

/-- `print_string` is called. -/
def push (c : C) (str : String) (shielded : Bool) : System C μ :=
  let mask := (s.cpu c).mask
  { s.setCpu c (⟨.disable, s.calls, str, mask, mask, shielded⟩ :: (s.cpu c).stack)
      (if shielded then V.disable mask else mask) with
    calls := s.calls + 1 }

/-- `do_key_irq`, `do_bh_key`. -/
def doKey (c : C) (key : Key) (shielded : Bool) : System C μ :=
  let cnt := s.cnt key + 1
  { s with cnt := Function.update s.cnt key cnt }.push V c (keyText key cnt) shielded

/-- A step of the running context `f`, which interrupts those in `rest`. -/
def advance (c : C) (f : Frame μ) (rest : List (Frame μ)) : System C μ :=
  let mask := (s.cpu c).mask
  let goto (s : System C μ) (pc : Pc) := s.setCpu c ({ f with pc } :: rest) mask
  match f.pc with
  | .disable => s.setCpu c ({ f with pc := .spin, flags := mask } :: rest) (V.disable mask)
  | .spin => if s.locked then s else goto { s with locked := true } (.printk 0)
  | .printk i => goto { s with log := s.log ++ [⟨s.gCount, f.str, f.call⟩] } (.countUp i)
  | .countUp i =>
    goto { s with gCount := s.gCount + 1 }
      (if i + 1 < OUT_STRING_CNT then .printk (i + 1) else .unlock)
  | .unlock => goto { s with locked := false } .restore
  | .restore => s.setCpu c ({ f with pc := .ret } :: rest) (V.restore f.flags mask)
  | .ret => s.setCpu c rest (if f.shielded then V.restore f.outer mask else mask)

def step : Act C → System C μ
  | .spinIoctl c arg => if (s.cpu c).stack = [] then s.push V c arg false else s
  | .handler c key shielded =>
    if V.on (s.cpu c).mask then s.doKey V c key shielded else s
  | .advance c =>
    match (s.cpu c).stack with
    | [] => s
    | f :: rest => s.advance V c f rest

end System

/-- Any number of processors, none of them in the driver. -/
def machine {μ : Type} (V : Masking μ) (C : Type) [DecidableEq C] :
    Machine (System C μ) (Act C) :=
  ⟨⟨false, 0, [], fun _ => 0, 0, fun _ => ⟨[], V.start⟩⟩, System.step V⟩

end KernelDrivers.Spinlock
