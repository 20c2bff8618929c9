import Mathlib.Data.List.Count
import KernelDrivers.Framework.Deferred

namespace KernelDrivers.Irq

open Framework

/-- The interrupt of each key, and the one bottom half that all keys share. -/
inductive Obj (n : Nat) where
  | irq (key : Fin n)
  | bh
  deriving DecidableEq

/-- Statements of the top and bottom halves. In the tasklet drivers `setData` is
`task.data = dev`, `schedule` is `tasklet_schedule(&task)` and `getDev` is the load of
`t->data` that calls the handler; in the workqueue drivers they are `keybh.pkey = dev`,
`schedule_work(&keybh.work)` and `pdev = container_of(..)->pkey`. -/
inductive Stmt (n : Nat) where
  | setData (dev : Fin n)
  | schedule
  | getDev
  | countUp
  deriving DecidableEq

/-- The counters of the keys, the data word of the tasklet or work, null after load, and the
bottom half's own `pdev`. -/
structure Dev (n : Nat) where
  cnt : Fin n → Int32
  data : Option (Fin n)
  pdev : Option (Fin n)

variable {n : Nat}

def Dev.fresh (n : Nat) : Dev n := ⟨fun _ => 0, none, none⟩

/-- `do_key_irq_tp`, `do_4keys`. -/
def doKeyIrqTp (dev : Fin n) : List (Stmt n) := [.setData dev, .schedule]

/-- `do_bh_key`, `do_4key_bh`. The kernel has cleared the scheduled bit when they begin, so a
top half can still overwrite the data word before they load it. -/
def doBhKey (n : Nat) : List (Stmt n) := [.getDev, .countUp]

/-- `pdev->cnt++`. -/
def countUp (cnt : Fin n → Int32) (pdev : Option (Fin n)) : Fin n → Int32 :=
  match pdev with
  | none => cnt
  | some k => Function.update cnt k (cnt k + 1)

/-- The handlers of irq/irq_bh/tasklet, irq/irq_bh/workqueue and of their namesakes under
kernel_code_v1/irq_bh. -/
def handlers (n : Nat) : Handlers (Obj n) (Stmt n) (Dev n) Unit where
  body o _ _ :=
    match o with
    | .irq key => doKeyIrqTp key
    | .bh => doBhKey n
  exec c d :=
    match c with
    | .setData dev => { d with data := some dev }
    | .schedule => d
    | .getDev => { d with pdev := d.data }
    | .countUp => { d with cnt := countUp d.cnt d.pdev }
  queues
    | .schedule => some .bh
    | _ => none
  raises _ o := o != .bh
  cancels _ := false

/-- A key's interrupt handled without interruption, or a step of the bottom half. -/
inductive Event (n : Nat) where
  | interrupt (key : Fin n)
  | start
  | proceed
  deriving DecidableEq

/-- The steps of the handlers that an event stands for. -/
def Event.acts : Event n → List (Handlers.Act (Obj n) Unit)
  | .interrupt key =>
    [.enter (.irq key) (), .advance (.irq key), .advance (.irq key), .advance (.irq key)]
  | .start => [.enter .bh ()]
  | .proceed => [.advance .bh]

abbrev Act (n : Nat) := Activity (Obj n) (Stmt n) (Dev n)

def machine (n : Nat) : Machine (Act n) (Event n) :=
  ⟨.loaded (.fresh n) [], fun s e => e.acts.foldl (handlers n).step s⟩

/-- The keys whose interrupts are among the events, in order. -/
def interrupts (events : List (Event n)) : List (Fin n) :=
  events.filterMap fun
    | .interrupt key => some key
    | _ => none

/-- `do_key_irq` of irq/request_irq, which counts in the handler itself. -/
def doKeyIrq (cnt : Fin n → Int32) (dev : Fin n) : Fin n → Int32 := countUp cnt (some dev)

/-- The counters that the direct handler leaves after some interrupts. -/
def direct (keys : List (Fin n)) : Fin n → Int32 := keys.foldl doKeyIrq fun _ => 0

/-- The bottom half has started and has not loaded the data word yet. -/
def Unread (s : Act n) : Prop := s.running .bh = some (doBhKey n)

/-- An interrupt does not arrive while the bottom half is scheduled, nor while it has yet to
load the data word of another key. -/
def TakenUp (s : Act n) : Event n → Prop
  | .interrupt key => s.queued .bh = false ∧ (Unread s → s.data.data = some key)
  | _ => True

theorem direct_apply (keys : List (Fin n)) (k : Fin n) :
    direct keys k = Int32.ofNat (keys.count k) := by
  unfold direct
  induction keys using List.reverseRecOn with
  | nil => rfl
  | append_singleton keys j ih =>
    rw [List.foldl_append, List.foldl_cons, List.foldl_nil, doKeyIrq, countUp]
    by_cases hk : k = j
    · subst hk
      rw [Function.update_self, ih, List.count_append, List.count_singleton_self, Int32.ofNat_add]
      rfl
    · rw [Function.update_of_ne hk, ih, List.count_append, List.count_singleton]
      simp [Ne.symm hk]

/-- The bottom half has no statement of its own that schedules anything. -/
theorem feeds_iff (o t : Obj n) : (handlers n).Feeds o t ↔ o ≠ .bh ∧ t = .bh := by
  constructor
  · intro h
    obtain ⟨d, input, c, hc, hq⟩ := h
    cases o with
    | irq key =>
      simp only [handlers, doKeyIrqTp, List.mem_cons, List.not_mem_nil, or_false] at hc hq
      rcases hc with rfl | rfl
      · cases hq
      · exact ⟨by simp, (Option.some.inj hq).symm⟩
    | bh =>
      simp only [handlers, doBhKey, List.mem_cons, List.not_mem_nil, or_false] at hc hq
      rcases hc with rfl | rfl <;> cases hq
  · intro h
    obtain ⟨ho, rfl⟩ := h
    cases o with
    | irq key => exact ⟨.fresh n, (), .schedule, by simp [handlers, doKeyIrqTp], rfl⟩
    | bh => exact absurd rfl ho

end KernelDrivers.Irq
