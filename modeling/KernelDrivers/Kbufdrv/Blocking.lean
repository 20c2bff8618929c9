import Mathlib.Data.Option.Basic
import KernelDrivers.Kbufdrv.Fifo

namespace KernelDrivers.Kbufdrv

open Framework Kernel

/-- The `kbuf_write` of both blocking drivers. -/
def waitingWrite (pdev : Kbuf) (buf : List Byte) (fate : CopyFate) : Option Outcome :=
  if buf.length = 0 then some ⟨0, [], pdev, false⟩
  else
    let ret := waitEventInterruptible (pdev.validlen != SZ_512)
    if ret < 0 then some ⟨ret, [], pdev, false⟩ else writeIn pdev buf fate

namespace Poll

def kbufRead (pdev : Kbuf) (cnt : Nat) (fate : CopyFate) : Option Outcome :=
  if cnt = 0 then some ⟨0, [], pdev, false⟩
  else
    let ret := waitEventInterruptible (pdev.validlen != 0)
    if ret < 0 then some ⟨ret, [], pdev, false⟩ else readOut pdev cnt fate

def kbufWrite : Kbuf → List Byte → CopyFate → Option Outcome := waitingWrite

def fops (pdev : Kbuf) (call : Call) (fate : CopyFate) : Option Outcome :=
  match call with
  | .read cnt => kbufRead pdev cnt fate
  | .write buf => kbufWrite pdev buf fate

end Poll

namespace Block

def kbufRead (pdev : Kbuf) (cnt : Nat) (fate : CopyFate) : Option Outcome :=
  if cnt = 0 then some ⟨0, [], pdev, false⟩
  else
    -- the value of the wait is dropped, so a signal falls through to the transfer
    let _ := waitEventInterruptible (pdev.validlen != 0)
    readOut pdev cnt fate

def kbufWrite : Kbuf → List Byte → CopyFate → Option Outcome := waitingWrite

def fops (pdev : Kbuf) (call : Call) (fate : CopyFate) : Option Outcome :=
  match call with
  | .read cnt => kbufRead pdev cnt fate
  | .write buf => kbufWrite pdev buf fate

end Block

/-- A driver that checks the value of its wait goes on exactly when the condition holds. -/
theorem wait_checked {α : Type*} (condition : Bool) (interrupted : Int → α) (served : α) :
    (if waitEventInterruptible condition < 0
      then interrupted (waitEventInterruptible condition) else served) =
      if condition = false then interrupted (-erestartsys) else served := by
  cases condition with
  | false => rfl
  | true => rfl

theorem Poll.fops_eq (pdev : Kbuf) (call : Call) (fate : CopyFate) :
    Poll.fops pdev call fate =
      if call.cnt = 0 then some ⟨0, [], pdev, false⟩
      else if call.ready pdev = false then some ⟨-erestartsys, [], pdev, false⟩
      else transfer pdev call fate := by
  cases call with
  | read cnt =>
    have hw := wait_checked (pdev.validlen != 0) (fun ret => some ⟨ret, [], pdev, false⟩)
      (readOut pdev cnt fate)
    exact congrArg (fun o => if cnt = 0 then some ⟨0, [], pdev, false⟩ else o) hw
  | write buf =>
    have hw := wait_checked (pdev.validlen != SZ_512) (fun ret => some ⟨ret, [], pdev, false⟩)
      (writeIn pdev buf fate)
    exact congrArg (fun o => if buf.length = 0 then some ⟨0, [], pdev, false⟩ else o) hw

/-- A read with `cnt > 0` issued while the buffer is empty: a signal ends its wait. -/
def EmptyRead (pdev : Kbuf) : Call → Prop
  | .read cnt => cnt ≠ 0 ∧ pdev.validlen = 0
  | .write _ => False

instance (pdev : Kbuf) (call : Call) : Decidable (EmptyRead pdev call) := by
  cases call <;> simp only [EmptyRead] <;> infer_instance

/-- Away from empty reads the two drivers are one function. -/
theorem block_eq_poll {pdev : Kbuf} {call : Call} (h : ¬ EmptyRead pdev call) (fate : CopyFate) :
    Block.fops pdev call fate = Poll.fops pdev call fate := by
  cases call with
  | write buf => rfl
  | read cnt =>
    by_cases h0 : cnt = 0
    · simp [Block.fops, Poll.fops, Block.kbufRead, Poll.kbufRead, h0]
    · have hv : pdev.validlen ≠ 0 := fun hv => h ⟨h0, hv⟩
      simp [Block.fops, Poll.fops, Block.kbufRead, Poll.kbufRead, h0, hv, waitEventInterruptible]

/-- On an empty read the first driver reports end of file. -/
theorem block_emptyRead {pdev : Kbuf} {call : Call} (hb : pdev.Bounded) (h : EmptyRead pdev call)
    (fate : CopyFate) : ∃ o, Block.fops pdev call fate = some o ∧ o.ret = 0 := by
  cases call with
  | write buf => exact h.elim
  | read cnt =>
    obtain ⟨h0, hv⟩ := h
    rcases readOut_cases hb cnt fate with ⟨hres, -⟩ | ⟨-, pdev', hret, -, -⟩
    · rw [hv, Nat.min_zero] at hres
      exact absurd fate.residue_zero hres
    · refine ⟨_, by simpa [Block.fops, Block.kbufRead, h0] using hret, ?_⟩
      simp [hv]

abbrev Driver := Kbuf → Call → CopyFate → Option Outcome

/-- The outcomes of a sequence of calls run one after another. -/
def callAll (drv : Driver) : Kbuf → List (Call × CopyFate) → Option (List Outcome)
  | _, [] => some []
  | pdev, c :: cs => (drv pdev c.1 c.2).bind fun o => (callAll drv o.dev cs).map (o :: ·)

/-- The device that a sequence of calls leaves. -/
def lastDev (pdev : Kbuf) : List Outcome → Kbuf
  | [] => pdev
  | o :: os => lastDev o.dev os

/-- What the caller of a sequence can see: return values, bytes and the device after
each call. -/
def visible (o : Outcome) : Int × List Byte × Kbuf := (o.ret, o.out, o.dev)

theorem callAll_cons {drv : Driver} {pdev : Kbuf} {call : Call} {fate : CopyFate} {o : Outcome}
    (ho : drv pdev call fate = some o) (cs : List (Call × CopyFate)) :
    (callAll drv pdev ((call, fate) :: cs)).map (List.map visible) =
      ((callAll drv o.dev cs).map (List.map visible)).map (visible o :: ·) := by
  simp only [callAll, ho, Option.bind_some, Option.map_map]
  rfl

/-- Every call of the sequence is served with an outcome that satisfies `P`. -/
def EveryCall (P : Kbuf → Call → Outcome → Prop) (drv : Driver) :
    Kbuf → List (Call × CopyFate) → Prop
  | _, [] => True
  | pdev, c :: cs => ∃ o, drv pdev c.1 c.2 = some o ∧ P pdev c.1 o ∧ EveryCall P drv o.dev cs

/-- A read that asks for something never reports end of file, and a call whose wait is cut
short by a signal returns the error and leaves the device alone. -/
structure WaitSpec (pdev : Kbuf) (call : Call) (o : Outcome) : Prop where
  noEof : ∀ cnt, call = .read cnt → cnt ≠ 0 → o.ret ≠ 0
  interrupted : call.cnt ≠ 0 → call.ready pdev = false → o.ret = -erestartsys ∧ o.dev = pdev

/-- The two blocking drivers agree on a sequence of calls, and both treat waits as they should. -/
def Agree (pdev : Kbuf) (calls : List (Call × CopyFate)) : Prop :=
  (callAll Block.fops pdev calls).map (List.map visible) =
      (callAll Poll.fops pdev calls).map (List.map visible) ∧
    EveryCall WaitSpec Block.fops pdev calls ∧ EveryCall WaitSpec Poll.fops pdev calls

def NoEmptyRead : Kbuf → List (Call × CopyFate) → Prop :=
  EveryCall (fun pdev call _ => ¬ EmptyRead pdev call) Poll.fops

/-- A call of the polling driver is served and meets the specification of waits. -/
theorem poll_waitSpec {pdev : Kbuf} (hb : pdev.Bounded) (call : Call) (fate : CopyFate) :
    ∃ o, Poll.fops pdev call fate = some o ∧ o.dev.Bounded ∧ WaitSpec pdev call o := by
  rw [Poll.fops_eq]
  by_cases h0 : call.cnt = 0
  · rw [if_pos h0]
    refine ⟨_, rfl, hb, ?_, fun h => absurd h0 h⟩
    intro cnt hc hcnt
    subst hc
    exact absurd h0 hcnt
  rw [if_neg h0]
  by_cases hr : call.ready pdev = false
  · rw [if_pos hr]
    exact ⟨_, rfl, hb, fun _ _ _ => by simp [erestartsys], fun _ _ => ⟨rfl, rfl⟩⟩
  rw [if_neg hr]
  obtain ⟨o, ho, hb', hend⟩ := transfer_cases hb call fate
  refine ⟨o, ho, hb', ?_, fun _ h => absurd h hr⟩
  intro cnt hc hcnt
  subst hc
  rcases hend with ⟨-, hret, -⟩ | ⟨-, -, heff⟩
  · rw [hret]
    decide
  · have hv : pdev.validlen ≠ 0 := by simpa [Call.ready] using hr
    have hret := congrArg (fun e => e.2.ret) heff
    simp only [fifoEffect, Kbuf.contents_length hb] at hret
    omega

/-- The two blocking drivers agree on exactly the sequences without a read that is issued
on an empty buffer. -/
theorem blocking_drivers_agree_iff (pdev : Kbuf) (hb : pdev.Bounded)
    (calls : List (Call × CopyFate)) : Agree pdev calls ↔ NoEmptyRead pdev calls := by
  induction calls generalizing pdev with
  | nil => exact ⟨fun _ => trivial, fun _ => ⟨rfl, trivial, trivial⟩⟩
  | cons c cs ih =>
    obtain ⟨call, fate⟩ := c
    obtain ⟨o, ho, hb', hspec⟩ := poll_waitSpec hb call fate
    have hpoll := ih o.dev hb'
    by_cases hempty : EmptyRead pdev call
    · -- both sides fail at this call
      obtain ⟨o', ho', hzero⟩ := block_emptyRead hb hempty fate
      constructor
      · rintro ⟨-, ⟨p, hp, hsp, -⟩, -⟩
        obtain rfl : o' = p := Option.some.inj (ho'.symm.trans hp)
        cases call with
        | write buf => exact hempty.elim
        | read cnt => exact absurd hzero (hsp.noEof cnt rfl hempty.1)
      · rintro ⟨-, -, hno, -⟩
        exact absurd hempty hno
    · have hblock : Block.fops pdev call fate = some o := (block_eq_poll hempty fate).trans ho
      constructor
      · rintro ⟨heq, ⟨p, hp, -, hB⟩, ⟨p', hp', -, hP⟩⟩
        obtain rfl : o = p := Option.some.inj (hblock.symm.trans hp)
        obtain rfl : o = p' := Option.some.inj (ho.symm.trans hp')
        refine ⟨o, ho, hempty, hpoll.mp ⟨?_, hB, hP⟩⟩
        rw [callAll_cons hblock, callAll_cons ho] at heq
        exact Option.map_injective List.cons_injective heq
      · rintro ⟨p, hp, -, hrest⟩
        obtain rfl : o = p := Option.some.inj (ho.symm.trans hp)
        obtain ⟨heq, hB, hP⟩ := hpoll.mpr hrest
        refine ⟨?_, ⟨o, hblock, hspec, hB⟩, ⟨o, ho, hspec, hP⟩⟩
        rw [callAll_cons hblock, callAll_cons ho, heq]

/-- A read that follows a write on a fresh device. -/
theorem blocking_drivers_agree_after_write :
    Agree .fresh [(.write [1, 2], .success), (.read 4, .success)] := by
  refine (blocking_drivers_agree_iff .fresh Kbuf.fresh_bounded _).mpr
    ⟨_, rfl, id, _, rfl, ?_, trivial⟩
  intro h
  exact absurd h.2 (by decide)

/-- A signal cuts the wait of a read short on a fresh device: one driver reports end of file. -/
theorem block_reports_eof_on_signal : ¬ Agree .fresh [(.read 4, .success)] := by
  intro h
  obtain ⟨-, ⟨o, ho, hspec, -⟩, -⟩ := h
  have hempty : EmptyRead .fresh (.read 4) := ⟨by decide, rfl⟩
  obtain ⟨o', ho', hzero⟩ := block_emptyRead Kbuf.fresh_bounded hempty .success
  obtain rfl := Option.some.inj (ho'.symm.trans ho)
  exact hspec.noEof 4 rfl (by decide) hzero

end KernelDrivers.Kbufdrv
