import KernelDrivers.Irq.Unload
import KernelDrivers.Keys.Device

namespace KernelDrivers.Keys.Unload

open Framework Kernel

/-- The interrupts of the keys, and the one timer and the one tasklet that they share. -/
inductive Obj where
  | irq (key : Key)
  | timer
  | tasklet
  deriving DecidableEq

/-- Statements of the handlers and of the exit functions. -/
inductive Stmt where
  | setTimerData (data : Option Key)
  | modTimer
  | setTaskData (data : Option Key)
  | taskletSchedule
  | report (pdev : Option Key)
  | deregister
  deriving DecidableEq

/-- The data words of timer and tasklet, null after load, whether user space can reach the
device, and what an event of a key changes. -/
structure Board (δ : Type*) where
  timerData : Option Key
  taskData : Option Key
  registered : Bool
  dev : δ

variable {δ : Type*}

def Board.fresh (dev : δ) : Board δ := ⟨none, none, true, dev⟩

/-- The effect of a statement, `event` being what the driver does about a key's event. -/
def exec (event : δ → Key → δ) (c : Stmt) (b : Board δ) : Board δ :=
  match c with
  | .setTimerData data => { b with timerData := data }
  | .modTimer => b
  | .setTaskData data => { b with taskData := data }
  | .taskletSchedule => b
  | .report none => b
  | .report (some key) => { b with dev := event b.dev key }
  | .deregister => { b with registered := false }

def queues : Stmt → Option Obj
  | .modTimer => some .timer
  | .taskletSchedule => some .tasklet
  | _ => none

def raises : Obj → Bool
  | .irq _ => true
  | _ => false

/-- `del_timer_sync` deletes an armed timer; `tasklet_kill` waits for a scheduled tasklet. -/
def cancels : Obj → Bool
  | .timer => true
  | _ => false

theorem mem_all {objs : List Obj} (hirq : ∀ key, .irq key ∈ objs) (htimer : .timer ∈ objs)
    (htasklet : .tasklet ∈ objs) (o : Obj) : o ∈ objs := by
  cases o with
  | irq key => exact hirq key
  | timer => exact htimer
  | tasklet => exact htasklet

abbrev Exit := List (MainStmt Obj Stmt)

abbrev Machine (δ : Type*) :=
  Framework.Machine (Activity Obj Stmt (Board δ)) (Handlers.Act Obj Unit)

namespace TimerFirst

/-- keys/key.c, input/keys/key.c, input/1point_ts/key.c and input/5point_mt/key.c. -/
def doKeyIrqTp (dev : Key) : List Stmt := [.setTimerData (some dev), .modTimer]

def doTimerKey (data : Option Key) : List Stmt := [.setTaskData data, .taskletSchedule]

def doBhKey (data : Option Key) : List Stmt := [.report data]

def handlers (event : δ → Key → δ) : Handlers Obj Stmt (Board δ) Unit where
  body o b _ :=
    match o with
    | .irq key => doKeyIrqTp key
    | .timer => doTimerKey b.timerData
    | .tasklet => doBhKey b.taskData
  exec := exec event
  queues := queues
  raises _ := raises
  cancels := cancels

/-- `kbuf_exit`, `keys_exit`: `free_irq_key`, `tasklet_kill`, `del_timer_sync`, and
`misc_deregister` or `input_unregister_device`. -/
def exit : Exit :=
  [.stop (.irq 0), .stop (.irq 1), .stop (.irq 2), .stop (.irq 3), .stop .tasklet, .stop .timer,
    .stmt .deregister]

def start (dev : δ) : Activity Obj Stmt (Board δ) := .loaded (.fresh dev) exit

def machine (event : δ → Key → δ) (dev : δ) : Machine δ := (handlers event).machine (start dev)

theorem feeds_cases {event : δ → Key → δ} {o t : Obj} (h : (handlers event).Feeds o t) :
    (t = .timer ∧ ∃ key, o = .irq key) ∨ (t = .tasklet ∧ o = .timer) := by
  obtain ⟨d, input, c, hc, hq⟩ := h
  cases o with
  | irq key =>
    simp only [handlers, doKeyIrqTp, List.mem_cons, List.not_mem_nil, or_false] at hc hq
    rcases hc with rfl | rfl
    · cases hq
    · exact Or.inl ⟨(Option.some.inj hq).symm, key, rfl⟩
  | timer =>
    simp only [handlers, doTimerKey, List.mem_cons, List.not_mem_nil, or_false] at hc hq
    rcases hc with rfl | rfl
    · cases hq
    · exact Or.inr ⟨(Option.some.inj hq).symm, rfl⟩
  | tasklet =>
    simp only [handlers, doBhKey, List.mem_cons, List.not_mem_nil, or_false] at hc hq
    rw [hc] at hq
    cases hq

theorem not_feeds_self (event : δ → Key → δ) (o : Obj) : ¬ (handlers event).Feeds o o := by
  intro h
  rcases feeds_cases h with ⟨rfl, key, hkey⟩ | ⟨rfl, ho⟩
  · cases hkey
  · cases ho

theorem start_unloading (dev : δ) : (start dev).Unloading := by
  apply Activity.loaded_unloading _ rfl
  · exact mem_all (by decide) (by decide) (by decide)
  · decide
  · simp [exit]

/-- After an exit function during which no `do_timer_key` has scheduled the tasklet behind
`tasklet_kill`, the timer is not armed, the tasklet is at rest and nothing happens any more;
one that does so can leave the tasklet scheduled. This holds whatever the bottom half does
about an event. -/
theorem exit_quiet (event : δ → Key → δ) (dev : δ) :
    Handlers.UnloadSpec (handlers event) (start dev) :=
  Handlers.unloadSpec_of_loaded (Activity.loaded_idle _ _) (start_unloading dev)
    (Handlers.loaded_bodied _ _) (not_feeds_self event)

/-- A key is pressed, and the exit function has come to `del_timer_sync` when the timer
expires. -/
def lateExpiry : List (Handlers.Act Obj Unit) :=
  [.enter (.irq 0) (), .advance (.irq 0), .advance (.irq 0), .advance (.irq 0),
    .main, .main, .main, .main, .main,
    .enter .timer (), .advance .timer, .advance .timer, .advance .timer, .main, .main]

theorem exit_leaves_tasklet_scheduled :
    ¬ (((machine Keys.doBhKey keys.fresh).run lateExpiry).Returned →
      ((machine Keys.doBhKey keys.fresh).run lateExpiry).Quiet .tasklet) := by
  intro h
  have hquiet := h rfl
  exact absurd hquiet.1 (by decide)

end TimerFirst

namespace TaskletFirst

/-- kernel_code_v1/keys/key.c, where the tasklet arms the timer. -/
def do4keys (data : Key) : List Stmt := [.setTaskData (some data), .taskletSchedule]

def do4keyBh (data : Option Key) : List Stmt := [.modTimer, .setTimerData data]

def doTimer (data : Option Key) : List Stmt := [.report data]

def handlers (event : δ → Key → δ) : Handlers Obj Stmt (Board δ) Unit where
  body o b _ :=
    match o with
    | .irq key => do4keys key
    | .tasklet => do4keyBh b.taskData
    | .timer => doTimer b.timerData
  exec := exec event
  queues := queues
  raises _ := raises
  cancels := cancels

/-- `demo_exit`: `tasklet_kill`, `unregister_4keys`, `misc_deregister`, `del_timer_sync`. -/
def exit : Exit :=
  [.stop .tasklet, .stop (.irq 3), .stop (.irq 2), .stop (.irq 1), .stop (.irq 0),
    .stmt .deregister, .stop .timer]

def start : Activity Obj Stmt (Board KeyDev) := .loaded (.fresh keysV1.fresh) exit

theorem feeds_cases {event : δ → Key → δ} {o t : Obj} (h : (handlers event).Feeds o t) :
    (t = .tasklet ∧ ∃ key, o = .irq key) ∨ (t = .timer ∧ o = .tasklet) := by
  obtain ⟨d, input, c, hc, hq⟩ := h
  cases o with
  | irq key =>
    simp only [handlers, do4keys, List.mem_cons, List.not_mem_nil, or_false] at hc hq
    rcases hc with rfl | rfl
    · cases hq
    · exact Or.inl ⟨(Option.some.inj hq).symm, key, rfl⟩
  | tasklet =>
    simp only [handlers, do4keyBh, List.mem_cons, List.not_mem_nil, or_false] at hc hq
    rcases hc with rfl | rfl
    · exact Or.inr ⟨(Option.some.inj hq).symm, rfl⟩
    · cases hq
  | timer =>
    simp only [handlers, doTimer, List.mem_cons, List.not_mem_nil, or_false] at hc hq
    rw [hc] at hq
    cases hq

theorem not_feeds_self (event : δ → Key → δ) (o : Obj) : ¬ (handlers event).Feeds o o := by
  intro h
  rcases feeds_cases h with ⟨rfl, key, hkey⟩ | ⟨rfl, ho⟩
  · cases hkey
  · cases ho

theorem start_unloading : start.Unloading := by
  apply Activity.loaded_unloading _ rfl
  · exact mem_all (by decide) (by decide) (by decide)
  · decide
  · simp [exit]

end TaskletFirst

/-- The exit functions of kernel_code_v1/keys, and of tasklet_bh and workqueue_bh under
kernel_code_v1/irq_bh, leave nothing behind when no interrupt has scheduled the bottom half
behind its `tasklet_kill` or `flush_work`; one that does so can leave it scheduled. -/
theorem demo_exits_quiet (n : Nat) :
    Handlers.UnloadSpec (TaskletFirst.handlers keysV1.event) TaskletFirst.start ∧
      Handlers.UnloadSpec (Irq.handlers n) (.loaded (.fresh n) (Irq.demoExit n)) :=
  ⟨Handlers.unloadSpec_of_loaded (Activity.loaded_idle _ _) TaskletFirst.start_unloading
      (Handlers.loaded_bodied _ _) (TaskletFirst.not_feeds_self _),
    Handlers.unloadSpec_of_loaded (Activity.loaded_idle _ _) (Irq.demoExit_unloading n)
      (Handlers.loaded_bodied _ _) Irq.not_feeds_self⟩

/-- In both exit functions a key is pressed right after the first statement. -/
theorem demo_exits_leave_bottom_half_scheduled :
    (¬ ∀ acts,
      (((TaskletFirst.handlers keysV1.event).machine TaskletFirst.start).run acts).Returned →
      (((TaskletFirst.handlers keysV1.event).machine TaskletFirst.start).run acts).Quiet .tasklet) ∧
    ¬ ∀ acts, ((Irq.unloadMachine (Irq.demoExit 4)).run acts).Returned →
      ((Irq.unloadMachine (Irq.demoExit 4)).run acts).Quiet .bh := by
  constructor
  · intro h
    have hquiet := h [.main, .enter (.irq 0) (), .advance (.irq 0), .advance (.irq 0),
      .advance (.irq 0), .main, .main, .main, .main, .main, .main] rfl
    exact absurd hquiet.1 (by decide)
  · intro h
    have hquiet := h [.main, .enter (.irq 0) (), .advance (.irq 0), .advance (.irq 0),
      .advance (.irq 0), .main, .main, .main, .main] rfl
    exact absurd hquiet.1 (by decide)

end KernelDrivers.Keys.Unload
