import KernelDrivers.Framework.FixedBuffer

namespace KernelDrivers.Kernel

abbrev Byte := UInt8

/-- An error number; a call that fails returns one of them negated. -/
def eio : Int := 5
def eagain : Int := 11
def enomem : Int := 12
def efault : Int := 14
def ebusy : Int := 16
def einval : Int := 22
def enospc : Int := 28
def erestartsys : Int := 512

/-- A negative error code. -/
structure Err where
  code : Int
  neg : code < 0

/-- What a call that returns an `int` status, or an error pointer, comes back with. -/
def status : Option Err → Int
  | none => 0
  | some e => e.code

def SZ_512 : Nat := 512

/-- The largest `size_t` of the 32-bit target. -/
def SIZE_MAX : Nat := 4294967295

/-- `a - b` on `size_t`. -/
def sizeSub (a b : Nat) : Nat := (((a : Int) - b) % (SIZE_MAX + 1 : Nat)).toNat

/-- `a + b` on `size_t`. -/
def sizeAdd (a b : Nat) : Nat := (a + b) % (SIZE_MAX + 1)

theorem sizeSub_of_le {a b : Nat} (h : b ≤ a) (ha : a ≤ SIZE_MAX) : sizeSub a b = a - b := by
  unfold sizeSub SIZE_MAX at *
  omega

theorem sizeAdd_of_lt {a b : Nat} (h : a + b ≤ SIZE_MAX) : sizeAdd a b = a + b :=
  Nat.mod_eq_of_lt (Nat.lt_succ_of_le h)

/-- What becomes of one copy between kernel and user memory: how many bytes are left
uncopied, and what a copy that leaves some puts into a kernel destination. -/
structure CopyFate where
  left : Nat
  junk : Nat → Byte

namespace CopyFate

def success : CopyFate := ⟨0, fun _ => 0⟩

/-- The value `copy_to_user` and `copy_from_user` return for a copy of `n` bytes. -/
def residue (fate : CopyFate) (n : Nat) : Nat := min fate.left n

/-- The bytes a copy of `bs` into the kernel leaves in its destination. -/
def landed (fate : CopyFate) (bs : List Byte) : List Byte :=
  if fate.residue bs.length = 0 then bs else (List.range bs.length).map fate.junk

@[simp] theorem residue_zero (fate : CopyFate) : fate.residue 0 = 0 := Nat.min_zero _

@[simp] theorem landed_length (fate : CopyFate) (bs : List Byte) :
    (fate.landed bs).length = bs.length := by
  unfold landed
  split <;> simp

theorem landed_of_residue {fate : CopyFate} {bs : List Byte} (h : fate.residue bs.length = 0) :
    fate.landed bs = bs := if_pos h

end CopyFate

/-- `wait_event_interruptible` for a process that nobody else serves meanwhile: it returns
at once when the condition holds, and otherwise only a signal ends it. -/
def waitEventInterruptible (condition : Bool) : Int :=
  if condition then 0 else -erestartsys

end KernelDrivers.Kernel
