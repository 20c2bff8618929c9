import Mathlib.Data.List.FinRange
import KernelDrivers.Framework.Deferred
import KernelDrivers.Keys.Device

namespace KernelDrivers.Keys.Load

open Framework Kernel

/-- The interrupts of the keys, the timer, the tasklet, and the processes in `key_read`. -/
inductive Obj (P : Type*) where
  | irq (key : Key)
  | timer
  | tasklet
  | read (p : P)
  deriving DecidableEq

/-- Statements of `kbuf_init`, of the handlers and of `key_read`. -/
inductive Stmt where
  | taskletInit
  | miscRegister
  | setupTimer
  | initWaitqueueHead
  | setTimerData (data : Option Key)
  | modTimer
  | setTaskData (data : Option Key)
  | taskletSchedule
  | report (pdev : Option Key)
  | wakeUp
  | waitEvent
  | clearFlag
  deriving DecidableEq

/-- The data words of timer and tasklet, null when they are set up; what has been initialised;
whether the device file is there; and the keys. -/
structure Board where
  timerData : Option Key
  timerReady : Bool
  taskData : Option Key
  taskReady : Bool
  waitReady : Bool
  registered : Bool
  dev : KeyDev

def Board.fresh : Board := ⟨none, false, none, false, false, false, keys.fresh⟩

def exec (c : Stmt) (b : Board) : Board :=
  match c with
  | .taskletInit => { b with taskData := none, taskReady := true }
  | .miscRegister => { b with registered := true }
  | .setupTimer => { b with timerData := none, timerReady := true }
  | .initWaitqueueHead => { b with waitReady := true }
  | .setTimerData data => { b with timerData := data }
  | .setTaskData data => { b with taskData := data }
  | .report (some key) => { b with dev := doBhKey b.dev key }
  | .clearFlag => { b with dev := { b.dev with flag := 0 } }
  | _ => b

def queues {P : Type*} : Stmt → Option (Obj P)
  | .modTimer => some .timer
  | .taskletSchedule => some .tasklet
  | _ => none

/-- What `key_read` is called with, and what becomes of its copy. -/
structure ReadArgs where
  cnt : Nat
  fate : CopyFate

def doKeyIrqTp (dev : Key) : List Stmt := [.setTimerData (some dev), .modTimer]

def doTimerKey (data : Option Key) : List Stmt := [.setTaskData data, .taskletSchedule]

def doBhKey (data : Option Key) : List Stmt := [.report data, .wakeUp]

/-- `key_read`: an event or a signal ends its wait, and the result of the wait is dropped. -/
def keyRead (args : ReadArgs) : List Stmt :=
  if args.cnt ≠ 4 then []
  else if args.fate.residue 4 ≠ 0 then [.waitEvent]
  else [.waitEvent, .clearFlag]

def handlers (P : Type*) : Handlers (Obj P) Stmt Board ReadArgs where
  body o b args :=
    match o with
    | .irq key => doKeyIrqTp key
    | .timer => doTimerKey b.timerData
    | .tasklet => doBhKey b.taskData
    | .read _ => keyRead args
  exec := exec
  queues := queues
  raises b o :=
    match o with
    | .irq _ => true
    | .read _ => b.registered
    | _ => false
  cancels o :=
    match o with
    | .timer => true
    | _ => false

/-- How `request_irq` of each key and `misc_register` would end. -/
structure Fates where
  irq : Key → Option Err
  misc : Option Err

abbrev Main (P : Type*) := List (MainStmt (Obj P) Stmt)

variable {P : Type*}

def freeIrqs (ks : List Key) : Main P := ks.map fun key => .stop (.irq key)

/-- The loop of `request_irq_key`, with the keys requested so far, the last one first, which
an error frees in `while (i--)`; and what it returns. -/
def requestIrqKey (f : Fates) : List Key → List Key → Main P × Int
  | _, [] => ([], 0)
  | requested, key :: left =>
    match f.irq key with
    | some e => (freeIrqs requested, e.code)
    | none =>
      let rest := requestIrqKey f (key :: requested) left
      (.start (.irq key) :: rest.1, rest.2)

/-- `kbuf_init` and what it returns. -/
def kbufInit (f : Fates) : Main P × Int :=
  let irqs : Main P × Int := requestIrqKey f [] (List.finRange 4)
  if irqs.2 < 0 then (.stmt .taskletInit :: irqs.1, irqs.2)
  else
    match f.misc with
    | some e => (.stmt .taskletInit :: (irqs.1 ++ freeIrqs (List.finRange 4)), e.code)
    | none => (.stmt .taskletInit :: (irqs.1 ++
        [.stmt .miscRegister, .stmt .setupTimer, .stmt .initWaitqueueHead]), 0)

/-- Before `kbuf_init`: no interrupt is requested, and a read needs the device file. -/
def start (P : Type*) (f : Fates) : Activity (Obj P) Stmt Board where
  data := .fresh
  live o :=
    match o with
    | .irq _ => false
    | _ => true
  queued _ := false
  running _ := none
  main := (kbufInit f).1

abbrev Act (P : Type*) := Handlers.Act (Obj P) ReadArgs

abbrev State (P : Type*) := Activity (Obj P) Stmt Board

def machine (P : Type*) [DecidableEq P] (f : Fates) : Machine (State P) (Act P) :=
  (handlers P).machine (start P f)

/-- A statement finds initialised what it is applied to, and `setup_timer` no armed timer. -/
def Allowed (s : State P) : Stmt → Prop
  | .modTimer => s.data.timerReady = true
  | .setupTimer => s.queued .timer = false
  | .taskletSchedule => s.data.taskReady = true
  | .wakeUp => s.data.waitReady = true
  | .waitEvent => s.data.waitReady = true
  | _ => True

/-- The statement that a step executes. -/
def Executes (s : State P) (c : Stmt) : Act P → Prop
  | .enter _ _ => False
  | .advance o => ∃ cs, s.running o = some (c :: cs)
  | .main => ∃ rest, s.main = .stmt c :: rest

def InOrder (s : State P) (a : Act P) : Prop := ∀ c, Executes s c a → Allowed s c

/-- No interrupt comes before `setup_timer`, and no tasklet and no read of 4 bytes starts
before `init_waitqueue_head`. -/
def Clean [DecidableEq P] (s : State P) : Act P → Prop
  | .enter (.irq key) _ => (handlers P).CanEnter s (.irq key) → s.data.timerReady = true
  | .enter .tasklet _ => (handlers P).CanEnter s .tasklet → s.data.waitReady = true
  | .enter (.read p) args =>
    (handlers P).CanEnter s (.read p) → args.cnt = 4 → s.data.waitReady = true
  | _ => True

/-- `kbuf_init` sets up the timer once, and behind the tasklet. -/
def Sound : Main P → Bool → Bool → Prop
  | [], _, _ => True
  | .start _ :: main, task, timer => Sound main task timer
  | .stop _ :: main, task, timer => Sound main task timer
  | .stmt .taskletInit :: main, _, timer => Sound main true timer
  | .stmt .setupTimer :: main, task, timer => task = true ∧ timer = false ∧ Sound main task true
  | .stmt .miscRegister :: main, task, timer => Sound main task timer
  | .stmt .initWaitqueueHead :: main, task, timer => Sound main task timer
  | .stmt _ :: _, _, _ => False

/-- Requesting and freeing interrupts initialises nothing. -/
theorem sound_append {irqs : Main P} (h : ∀ m ∈ irqs, ∀ c, m ≠ .stmt c) (main : Main P)
    (task timer : Bool) : Sound (irqs ++ main) task timer ↔ Sound main task timer := by
  induction irqs with
  | nil => exact Iff.rfl
  | cons m irqs ih =>
    have hrest := ih fun q hq => h q (List.mem_cons_of_mem m hq)
    cases m with
    | start o => exact hrest
    | stop o => exact hrest
    | stmt c => exact absurd rfl (h (.stmt c) List.mem_cons_self c)

theorem freeIrqs_no_stmt (ks : List Key) :
    ∀ m ∈ (freeIrqs ks : Main P), ∀ c, m ≠ .stmt c := by
  intro m hm c
  obtain ⟨key, -, rfl⟩ := List.mem_map.mp hm
  exact nofun

theorem requestIrqKey_no_stmt (f : Fates) (requested left : List Key) :
    ∀ m ∈ (requestIrqKey f requested left : Main P × Int).1, ∀ c, m ≠ .stmt c := by
  induction left generalizing requested with
  | nil => exact fun m hm => absurd hm List.not_mem_nil
  | cons key left ih =>
    cases hf : f.irq key with
    | some e =>
      simp only [requestIrqKey, hf]
      exact freeIrqs_no_stmt requested
    | none =>
      simp only [requestIrqKey, hf]
      intro m hm
      rcases List.mem_cons.mp hm with rfl | hm
      · exact fun c => nofun
      · exact ih (key :: requested) m hm

theorem kbufInit_sound (f : Fates) : Sound (kbufInit f : Main P × Int).1 false false := by
  have hirqs := requestIrqKey_no_stmt (P := P) f [] (List.finRange 4)
  unfold kbufInit
  simp only
  by_cases hret : (requestIrqKey f [] (List.finRange 4) : Main P × Int).2 < 0
  · rw [if_pos hret]
    have hdone := (sound_append hirqs [] true false).mpr trivial
    rwa [List.append_nil] at hdone
  rw [if_neg hret]
  cases f.misc with
  | some e =>
    have hnone := freeIrqs_no_stmt (P := P) (List.finRange 4)
    have hfree := (sound_append hnone [] true false).mpr trivial
    rw [List.append_nil] at hfree
    exact (sound_append hirqs _ true false).mpr hfree
  | none =>
    apply (sound_append hirqs _ true false).mpr
    simp [Sound]

/-- The statements that a handler is made of. -/
def Obj.runs : Obj P → Stmt → Bool
  | .irq _, .setTimerData _ => true
  | .irq _, .modTimer => true
  | .timer, .setTaskData _ => true
  | .timer, .taskletSchedule => true
  | .tasklet, .report _ => true
  | .tasklet, .wakeUp => true
  | .read _, .waitEvent => true
  | .read _, .clearFlag => true
  | _, _ => false

theorem body_runs (o : Obj P) (b : Board) (args : ReadArgs) :
    ∀ c ∈ (handlers P).body o b args, o.runs c = true := by
  cases o with
  | irq key => simp [handlers, doKeyIrqTp, Obj.runs]
  | timer => simp [handlers, doTimerKey, Obj.runs]
  | tasklet => simp [handlers, doBhKey, Obj.runs]
  | read p =>
    show ∀ c ∈ keyRead args, (Obj.read p).runs c = true
    unfold keyRead
    by_cases hcnt : args.cnt ≠ 4
    · rw [if_pos hcnt]
      exact fun c hc => absurd hc List.not_mem_nil
    rw [if_neg hcnt]
    by_cases hres : args.fate.residue 4 ≠ 0
    · simp [hres, Obj.runs]
    · simp [hres, Obj.runs]

/-- No handler initialises anything. -/
theorem exec_ready {o : Obj P} {c : Stmt} (h : o.runs c = true) (b : Board) :
    (exec c b).timerReady = b.timerReady ∧ (exec c b).taskReady = b.taskReady ∧
      (exec c b).waitReady = b.waitReady := by
  cases c with
  | report pdev => cases pdev <;> exact ⟨rfl, rfl, rfl⟩
  | taskletInit => cases o <;> cases h
  | miscRegister => cases o <;> cases h
  | setupTimer => cases o <;> cases h
  | initWaitqueueHead => cases o <;> cases h
  | _ => exact ⟨rfl, rfl, rfl⟩

/-- What keeps the steps in order: until the timer is set up no interrupt has come and the
timer is not armed, and until the wait queue is initialised nothing that uses it runs. -/
structure Inv (s : State P) : Prop where
  sound : Sound s.main s.data.taskReady s.data.timerReady
  order : s.data.timerReady = true → s.data.taskReady = true
  timer : s.data.timerReady = false → (∀ key, s.running (.irq key) = none) ∧
    s.running .timer = none ∧ s.queued .timer = false
  wait : s.data.waitReady = false → s.running .tasklet = none ∧
    ∀ p cs, s.running (.read p) = some cs → .waitEvent ∉ cs
  bodies : ∀ o cs, s.running o = some cs → ∀ c ∈ cs, o.runs c = true

variable {s : State P}

theorem Inv.inOrder (h : Inv s) (a : Act P) : InOrder s a := by
  intro c hc
  cases a with
  | enter o args => exact hc.elim
  | advance o =>
    obtain ⟨cs, hr⟩ := hc
    have hruns := h.bodies o _ hr c List.mem_cons_self
    have htimer : (∃ key, o = .irq key) ∨ o = .timer → s.data.timerReady = true := by
      intro ho
      by_contra hnot
      obtain ⟨hirq, htimer, -⟩ := h.timer (Bool.eq_false_iff.mpr hnot)
      rcases ho with ⟨key, rfl⟩ | rfl
      · exact absurd (hr.symm.trans (hirq key)) (Option.some_ne_none _)
      · exact absurd (hr.symm.trans htimer) (Option.some_ne_none _)
    cases o with
    | irq key =>
      have hready := htimer (Or.inl ⟨key, rfl⟩)
      cases c <;> first | exact hready | trivial
    | timer =>
      have hready := h.order (htimer (Or.inr rfl))
      cases c <;> first | exact hready | trivial
    | tasklet =>
      have hready : s.data.waitReady = true := by
        by_contra hnot
        have hnone := (h.wait (Bool.eq_false_iff.mpr hnot)).1
        exact absurd (hr.symm.trans hnone) (Option.some_ne_none _)
      cases c <;> first | exact hready | trivial
    | read p =>
      have hready (hmem : Stmt.waitEvent ∈ c :: cs) : s.data.waitReady = true := by
        by_contra hnot
        exact (h.wait (Bool.eq_false_iff.mpr hnot)).2 p _ hr hmem
      cases c with
      | waitEvent => exact hready List.mem_cons_self
      | clearFlag => trivial
      | _ => cases hruns
  | main =>
    obtain ⟨rest, hm⟩ := hc
    have hsound := h.sound
    rw [hm] at hsound
    cases c with
    | setupTimer => exact (h.timer hsound.2.1).2.2
    | taskletInit => trivial
    | miscRegister => trivial
    | initWaitqueueHead => trivial
    | _ => exact hsound.elim

section Steps

variable [DecidableEq P]

/-- A step in which `o` enters or goes on keeps the invariant when `o` may run at all. -/
theorem Inv.move (h : Inv s) {s' : State P} {o : Obj P} {v : Option (List Stmt)}
    (hmain : s'.main = s.main) (htimerReady : s'.data.timerReady = s.data.timerReady)
    (htaskReady : s'.data.taskReady = s.data.taskReady)
    (hwaitReady : s'.data.waitReady = s.data.waitReady)
    (hrunning : s'.running = Function.update s.running o v)
    (htimer : s.data.timerReady = false →
      (∀ key, o ≠ .irq key) ∧ o ≠ .timer ∧ s'.queued .timer = false)
    (hwait : s.data.waitReady = false →
      o ≠ .tasklet ∧ ∀ p cs, o = .read p → v = some cs → .waitEvent ∉ cs)
    (hbodies : ∀ q cs, s'.running q = some cs → ∀ c ∈ cs, q.runs c = true) : Inv s' where
  sound := by
    rw [hmain, htimerReady, htaskReady]
    exact h.sound
  order := by
    rw [htimerReady, htaskReady]
    exact h.order
  timer hnot := by
    rw [htimerReady] at hnot
    obtain ⟨hirq, hidle, -⟩ := h.timer hnot
    obtain ⟨hne, hne', hqueued⟩ := htimer hnot
    rw [hrunning, Function.update_of_ne hne'.symm]
    refine ⟨fun key => ?_, hidle, hqueued⟩
    rw [Function.update_of_ne (hne key).symm]
    exact hirq key
  wait hnot := by
    rw [hwaitReady] at hnot
    obtain ⟨hidle, hread⟩ := h.wait hnot
    obtain ⟨hne, hv⟩ := hwait hnot
    rw [hrunning, Function.update_of_ne hne.symm]
    refine ⟨hidle, fun p cs hp => ?_⟩
    rcases update_eq_some hp with ⟨ho, hself⟩ | ⟨-, hother⟩
    · exact hv p cs ho.symm hself
    · exact hread p cs hother
  bodies := hbodies

theorem step_enter (h : Inv s) {o : Obj P} {args : ReadArgs} (hc : Clean s (.enter o args)) :
    Inv ((handlers P).step s (.enter o args)) := by
  have hbodies := Handlers.step_left body_runs h.bodies (.enter o args)
  by_cases hen : (handlers P).CanEnter s o
  · rw [Handlers.step_enter hen] at hbodies ⊢
    refine h.move rfl rfl rfl rfl rfl ?_ ?_ hbodies
    · intro hnot
      have htimer : o ≠ .timer := by
        intro heq
        subst heq
        obtain ⟨-, hq | ⟨-, hraise⟩⟩ := hen
        · exact absurd (hq.symm.trans (h.timer hnot).2.2) (by decide)
        · cases hraise
      refine ⟨fun key heq => ?_, htimer, ?_⟩
      · subst heq
        exact absurd ((hc hen).symm.trans hnot) (by decide)
      · exact (Function.update_of_ne htimer.symm _ _).trans (h.timer hnot).2.2
    · intro hnot
      refine ⟨fun heq => ?_, fun p cs heq hbody => ?_⟩
      · subst heq
        exact absurd ((hc hen).symm.trans hnot) (by decide)
      · -- the read is one that does not wait
        subst heq
        have hcnt : args.cnt ≠ 4 := fun hcnt => absurd ((hc hen hcnt).symm.trans hnot) (by decide)
        have hnil : keyRead args = [] := if_pos hcnt
        have hcs : keyRead args = cs := Option.some.inj hbody
        rw [← hcs, hnil]
        exact List.not_mem_nil
  · simp only [Handlers.step, if_neg hen]
    exact h

omit [DecidableEq P] in
/-- A handler that runs is one that may. -/
theorem Inv.running (h : Inv s) {o : Obj P} {cs : List Stmt} (hr : s.running o = some cs) :
    (s.data.timerReady = false → (∀ key, o ≠ .irq key) ∧ o ≠ .timer) ∧
      (s.data.waitReady = false → o ≠ .tasklet ∧ ∀ p, o = .read p → .waitEvent ∉ cs) := by
  have hne {q : Obj P} (hq : s.running q = none) : o ≠ q := by
    intro heq
    rw [heq] at hr
    exact absurd (hr.symm.trans hq) (Option.some_ne_none _)
  constructor
  · intro hnot
    obtain ⟨hirq, htimer, -⟩ := h.timer hnot
    exact ⟨fun key => hne (hirq key), hne htimer⟩
  · intro hnot
    obtain ⟨htasklet, hread⟩ := h.wait hnot
    refine ⟨hne htasklet, fun p heq => ?_⟩
    rw [heq] at hr
    exact hread p cs hr

theorem step_advance (h : Inv s) (o : Obj P) : Inv ((handlers P).step s (.advance o)) := by
  have hbodies := Handlers.step_left body_runs h.bodies (.advance o)
  cases hr : s.running o with
  | none => simpa only [Handlers.step, hr] using h
  | some cs =>
    obtain ⟨htimer, hwait⟩ := h.running hr
    cases cs with
    | nil =>
      rw [Handlers.step_end hr] at hbodies ⊢
      refine h.move (v := none) rfl rfl rfl rfl rfl ?_ ?_ hbodies
      · intro hnot
        obtain ⟨hirq, hne⟩ := htimer hnot
        exact ⟨hirq, hne, (h.timer hnot).2.2⟩
      · intro hnot
        exact ⟨(hwait hnot).1, fun _ _ _ hnone => absurd hnone.symm (Option.some_ne_none _)⟩
    | cons c cs =>
      have hruns := h.bodies o _ hr
      obtain ⟨htimerReady, htaskReady, hwaitReady⟩ :=
        exec_ready (hruns c List.mem_cons_self) s.data
      rw [Handlers.step_exec hr] at hbodies ⊢
      refine h.move (v := some cs) rfl htimerReady htaskReady hwaitReady rfl ?_ ?_ hbodies
      · intro hnot
        obtain ⟨hirq, hne⟩ := htimer hnot
        have hnoarm : (handlers P).queues c ≠ some .timer := by
          -- only an interrupt arms the timer
          intro hq
          have hc := hruns c List.mem_cons_self
          cases c with
          | modTimer =>
            cases o with
            | irq key => exact hirq key rfl
            | _ => cases hc
          | _ => cases hq
        exact ⟨hirq, hne, (Handlers.perform_queued_of_ne hnoarm).trans (h.timer hnot).2.2⟩
      · intro hnot
        obtain ⟨hne, hread⟩ := hwait hnot
        refine ⟨hne, fun p ds heq hds => ?_⟩
        rw [← Option.some.inj hds]
        exact fun hmem => hread p heq (List.mem_cons_of_mem c hmem)

theorem step_main (h : Inv s) : Inv ((handlers P).step s .main) := by
  have hsound := h.sound
  simp only [Handlers.step]
  cases hm : s.main with
  | nil => exact h
  | cons m rest =>
    rw [hm] at hsound
    cases m with
    | start o => exact ⟨hsound, h.order, h.timer, h.wait, h.bodies⟩
    | stop o =>
      by_cases hstop : (handlers P).CanStop s o
      · simp only [if_pos hstop]
        refine ⟨hsound, h.order, fun hnot => ?_, h.wait, h.bodies⟩
        obtain ⟨hirq, hidle, hqueued⟩ := h.timer hnot
        refine ⟨hirq, hidle, ?_⟩
        show Function.update s.queued o false .timer = false
        by_cases ho : o = .timer
        · rw [ho, Function.update_self]
        · rw [Function.update_of_ne (Ne.symm ho)]
          exact hqueued
      · simp only [if_neg hstop]
        exact h
    | stmt c =>
      cases c with
      | taskletInit => exact ⟨hsound, fun _ => rfl, h.timer, h.wait, h.bodies⟩
      | miscRegister => exact ⟨hsound, h.order, h.timer, h.wait, h.bodies⟩
      | setupTimer =>
        obtain ⟨htask, -, hrest⟩ := hsound
        exact ⟨hrest, fun _ => htask, fun hnot => absurd hnot.symm Bool.false_ne_true, h.wait,
          h.bodies⟩
      | initWaitqueueHead =>
        exact ⟨hsound, h.order, h.timer, fun hnot => absurd hnot.symm Bool.false_ne_true, h.bodies⟩
      | _ => exact hsound.elim

omit [DecidableEq P] in
theorem start_inv (P : Type*) (f : Fates) : Inv (start P f) where
  sound := kbufInit_sound f
  order := nofun
  timer _ := ⟨fun _ => rfl, rfl, rfl⟩
  wait _ := ⟨rfl, fun _ _ h => absurd h (Option.some_ne_none _).symm⟩
  bodies _ _ h := absurd h (Option.some_ne_none _).symm

theorem step_inv {a : Act P} (hc : Clean s a) (h : Inv s) : Inv ((handlers P).step s a) := by
  cases a with
  | enter o args => exact step_enter h hc
  | advance o => exact step_advance h o
  | main => exact step_main h

/-- A handler that goes on at once from one statement to the next. -/
theorem inOrder_second {o : Obj P} {c d : Stmt} {cs : List Stmt}
    (hr : s.running o = some (c :: d :: cs)) (hruns : o.runs c = true)
    (h : InOrder ((handlers P).step s (.advance o)) (.advance o)) :
    (d = .modTimer → s.data.timerReady = true) ∧ (d = .wakeUp → s.data.waitReady = true) := by
  obtain ⟨hrunning, hdata⟩ := Handlers.step_advanced (H := handlers P) hr
  obtain ⟨htimer, -, hwait⟩ := exec_ready hruns s.data
  have hallowed := h d ⟨cs, hrunning⟩
  constructor
  · intro hd
    subst hd
    have hready : (exec c s.data).timerReady = true := by
      rw [← show _ = exec c s.data from hdata]
      exact hallowed
    exact htimer.symm.trans hready
  · intro hd
    subst hd
    have hready : (exec c s.data).waitReady = true := by
      rw [← show _ = exec c s.data from hdata]
      exact hallowed
    exact hwait.symm.trans hready

/-- A handler that comes too early, and goes on at once, applies a statement to what is not
initialised. -/
theorem early_enter {a : Act P} (hc : ¬ Clean s a) :
    ∃ (more : List (Act P)) (last : Act P),
      ¬ InOrder ((a :: more).foldl (handlers P).step s) last := by
  cases a with
  | advance o => exact absurd trivial hc
  | main => exact absurd trivial hc
  | enter o args =>
    cases o with
    | timer => exact absurd trivial hc
    | irq key =>
      simp only [Clean, Classical.not_imp] at hc
      obtain ⟨hen, hnot⟩ := hc
      obtain ⟨hrunning, hdata⟩ := Handlers.step_entered hen args
      refine ⟨[.advance (.irq key)], .advance (.irq key), fun h => hnot ?_⟩
      rw [← hdata]
      exact (inOrder_second hrunning rfl h).1 rfl
    | tasklet =>
      simp only [Clean, Classical.not_imp] at hc
      obtain ⟨hen, hnot⟩ := hc
      obtain ⟨hrunning, hdata⟩ := Handlers.step_entered hen args
      refine ⟨[.advance .tasklet], .advance .tasklet, fun h => hnot ?_⟩
      rw [← hdata]
      exact (inOrder_second hrunning rfl h).2 rfl
    | read p =>
      simp only [Clean, Classical.not_imp] at hc
      obtain ⟨hen, hcnt, hnot⟩ := hc
      obtain ⟨hrunning, hdata⟩ := Handlers.step_entered hen args
      have hwaits : ∃ rest, keyRead args = .waitEvent :: rest := by
        unfold keyRead
        rw [if_neg (not_not.mpr hcnt)]
        by_cases hres : args.fate.residue 4 ≠ 0
        · exact ⟨[], if_pos hres⟩
        · exact ⟨[.clearFlag], if_neg hres⟩
      obtain ⟨rest, hrest⟩ := hwaits
      refine ⟨[], .advance (.read p), fun h => hnot ?_⟩
      rw [← hdata]
      exact h .waitEvent ⟨rest, hrunning.trans (congrArg some hrest)⟩

end Steps

/-- In a run in which no interrupt comes before `setup_timer` and no tasklet and no read of 4
bytes starts before `init_waitqueue_head`, everything is applied in order; and a handler that
comes earlier can go on to apply something to what is not initialised. -/
theorem load_in_order (P : Type*) [DecidableEq P] (f : Fates) (acts : List (Act P)) :
    ((machine P f).Meets Clean acts → (machine P f).Meets InOrder acts) ∧
      ∀ a, ¬ Clean ((machine P f).run acts) a →
        ∃ more, ¬ (machine P f).Meets InOrder (acts ++ a :: more) := by
  constructor
  · intro hm
    have hstep (s : State P) (a : Act P) (hc : Clean s a) (h : Inv s) :
        Inv ((machine P f).step s a) := step_inv hc h
    exact Machine.meets_of_invariant (start_inv P f) hstep (fun _ a h => h.inOrder a) hm
  · intro a ha
    obtain ⟨more, last, hlast⟩ := early_enter ha
    refine ⟨more ++ [last], fun hm => hlast ?_⟩
    have hsplit : acts ++ a :: (more ++ [last]) = (acts ++ a :: more) ++ [last] := by simp
    rw [hsplit, Machine.meets_concat, Machine.run_append] at hm
    exact hm.2

def allSucceed : Fates := ⟨fun _ => none, none⟩

/-- A key that is pressed when `kbuf_init` is through is harmless. -/
theorem load_in_order_pressed :
    (machine Unit allSucceed).Meets InOrder (List.replicate 9 .main ++
      [.enter (.irq 0) ⟨0, .success⟩, .advance (.irq 0), .advance (.irq 0)]) := by
  apply (load_in_order Unit allSucceed _).1
  refine ⟨trivial, trivial, trivial, trivial, trivial, trivial, trivial, trivial, trivial,
    ?_, trivial, trivial, trivial⟩
  intro _
  rfl

/-- `key` is pressed right after its interrupt has been requested. -/
def earlyPress (key : Key) : List (Act Unit) :=
  [.main, .main, .enter (.irq key) ⟨0, .success⟩, .advance (.irq key), .advance (.irq key)]

/-- The device file is read as soon as it is there. -/
def earlyRead : List (Act Unit) :=
  [.main, .main, .main, .main, .main, .main, .enter (.read ()) ⟨4, .success⟩,
    .advance (.read ())]

theorem load_out_of_order :
    ¬ (machine Unit allSucceed).Meets InOrder (earlyPress 0) ∧
      ¬ (machine Unit allSucceed).Meets InOrder earlyRead := by
  constructor
  · intro h
    have hlast := h.2.2.2.2.1
    have hready := hlast .modTimer ⟨[], by decide⟩
    exact absurd (show false = true from hready) (by decide)
  · intro h
    have hlast := h.2.2.2.2.2.2.2.1
    have hready := hlast .waitEvent ⟨[.clearFlag], by decide⟩
    exact absurd (show false = true from hready) (by decide)

end KernelDrivers.Keys.Load
