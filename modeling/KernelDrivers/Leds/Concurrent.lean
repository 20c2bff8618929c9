import KernelDrivers.Framework.Machine
import KernelDrivers.Leds.Commands

namespace KernelDrivers.Leds.Concurrent

open Framework Kernel Register Miscled

/-- A port as `demo_init` leaves it. -/
structure SetUp where
  origin : Board
  board : Board
  mapped : origin.mapped = true
  setup : setupPort origin = some board

/-- Where a process is in `demo_write`: before the `ioread8` of `ledonoff`, or before its
`iowrite8` with what was read. -/
inductive Task where
  | idle
  | read (c : Checked)
  | write (c : Checked) (tmp : BitVec 8)

/-- The command of a request that has passed the checks. -/
def commandOf (c : Checked) : Command := ⟨lampOf c.num.toNat, c.cmd == LEDON⟩

/-- The port, the processes, and the commands completed so far in the order of their `iowrite8`. -/
structure State (P : Type*) where
  board : Board
  task : P → Task
  completed : List Command

inductive Act (P : Type*) where
  | demoWrite (p : P) (w : Write)
  | run (p : P)

variable {P : Type*} [DecidableEq P]

namespace State

def goto (s : State P) (p : P) (t : Task) : State P :=
  { s with task := Function.update s.task p t }

def step (s : State P) : Act P → State P
  | .demoWrite p w =>
    match s.task p with
    | .idle =>
      match checkWrite w with
      | .error _ => s
      | .ok c => s.goto p (.read c)
    | _ => s
  | .run p =>
    match s.task p with
    | .idle => s
    | .read c =>
      match s.board.ioread8 .gpm4dat with
      | none => s
      | some tmp => s.goto p (.write c tmp)
    | .write c tmp =>
      match s.board.iowrite8 .gpm4dat (updateTmp c.cmd c.num tmp) with
      | none => s
      | some board =>
        { s.goto p .idle with board, completed := s.completed ++ [commandOf c] }

end State

def machine (port : SetUp) (P : Type*) [DecidableEq P] : Machine (State P) (Act P) :=
  ⟨⟨port.board, fun _ => .idle, []⟩, State.step⟩

/-- Which LEDs the completed commands have left lit. -/
def litOf (completed : List Command) : Lit :=
  completed.foldl (fun lit c => c.apply lit) fun _ => false

/-- Every LED is as the last completed command for it says. -/
def Kept (s : State P) : Prop := Shows s.board.dat (litOf s.completed)

/-- No process is in the middle of a command. -/
def Resting (s : State P) : Prop := ∀ p, s.task p = .idle

/-- A command that writes the register has seen the other LEDs as they are. -/
def Fresh (s : State P) : Act P → Prop
  | .demoWrite _ _ => True
  | .run p => ∀ c tmp, s.task p = .write c tmp →
      ∀ i : Fin 4, i ≠ (commandOf c).lamp → tmp.getLsbD i = s.board.dat.getLsbD i

omit [DecidableEq P] in
theorem encodes_commandOf (c : Checked) : c.Encodes (commandOf c) := by
  have hcmd := c.isCmd
  have hnum := c.isNum
  rw [UInt8.lt_iff_toNat_lt, UInt8.lt_iff_toNat_lt] at hnum
  have hrange : ¬ (c.num.toNat < 1 ∨ 4 < c.num.toNat) := hnum
  constructor
  · by_cases hon : c.cmd = LEDON
    · simp [commandOf, hon, cmdOf]
    · have hoff : c.cmd = LEDOFF := by
        by_contra hne
        exact hcmd ⟨hon, hne⟩
      simp [commandOf, hoff, cmdOf]
  · show c.num.toNat = (c.num.toNat - 1) % 4 + 1
    omega

/-- The state after the `iowrite8` of a command. -/
def State.written (s : State P) (p : P) (c : Checked) (tmp : BitVec 8) : State P :=
  { s.goto p .idle with
    board := s.board.set .gpm4dat
      (putLow (assign tmp (commandOf c).lamp (!(commandOf c).on)) s.board.dat)
    completed := s.completed ++ [commandOf c] }

/-- Only the `iowrite8` of a command changes the port. -/
theorem step_cases {s : State P} (hm : s.board.mapped = true) (a : Act P) :
    (∃ p c tmp, a = .run p ∧ s.task p = .write c tmp ∧ s.step a = s.written p c tmp) ∨
      (Fresh s a ∧ (s.step a).board = s.board ∧ (s.step a).completed = s.completed) := by
  cases a with
  | demoWrite p w =>
    refine Or.inr ⟨trivial, ?_⟩
    cases ht : s.task p with
    | idle => cases hw : checkWrite w <;> simp [State.step, ht, hw, State.goto]
    | read c => simp [State.step, ht]
    | write c tmp => simp [State.step, ht]
  | run p =>
    cases ht : s.task p with
    | idle =>
      have hfresh : Fresh s (.run p) := fun c tmp h => by rw [ht] at h; cases h
      exact Or.inr ⟨hfresh, by simp [State.step, ht]⟩
    | read c =>
      have hfresh : Fresh s (.run p) := fun c tmp h => by rw [ht] at h; cases h
      exact Or.inr ⟨hfresh, by
        simp [State.step, ht, Board.ioread8, Board.ioread32, hm, State.goto]⟩
    | write c tmp =>
      refine Or.inl ⟨p, c, tmp, rfl, ht, ?_⟩
      simp only [State.step, ht, Board.iowrite8, Board.iowrite32, hm, if_true,
        updateTmp_eq (encodes_commandOf c)]
      rfl

theorem litOf_concat (completed : List Command) (c : Command) :
    litOf (completed ++ [c]) = c.apply (litOf completed) := by
  rw [litOf, List.foldl_append]
  rfl

/-- A write keeps the state of every LED exactly when it has seen the others as they are. -/
theorem kept_written_iff {s : State P} (h : Kept s) (p : P) (c : Checked) (tmp : BitVec 8) :
    Kept (s.written p c tmp) ↔
      ∀ i : Fin 4, i ≠ (commandOf c).lamp → tmp.getLsbD i = s.board.dat.getLsbD i := by
  let command := commandOf c
  have hbit (i : Fin 4) : (s.written p c tmp).board.dat.getLsbD i =
      (assign tmp command.lamp (!command.on)).getLsbD i :=
    getLsbD_putLow_of_lt _ _ (by omega) (by decide)
  have hother (i : Fin 4) (hi : i ≠ command.lamp) :
      (assign tmp command.lamp (!command.on)).getLsbD i = tmp.getLsbD i :=
    getLsbD_assign_of_ne _ (fun h => hi (Fin.ext h)) _
  have hlit : litOf (s.written p c tmp).completed = command.apply (litOf s.completed) :=
    litOf_concat s.completed command
  constructor
  · intro hkept i hi
    have hi' := hkept i
    rw [hbit, hother i hi, hlit, Command.apply, Function.update_of_ne hi] at hi'
    rw [hi', h i]
  · intro hfresh i
    rw [hbit, hlit, Command.apply]
    by_cases hi : i = command.lamp
    · subst hi
      rw [getLsbD_assign_self _ (by omega), Function.update_self]
    · rw [hother i hi, Function.update_of_ne hi, hfresh i hi, h i]

theorem step_mapped {s : State P} (hm : s.board.mapped = true) (a : Act P) :
    (s.step a).board.mapped = true := by
  rcases step_cases hm a with ⟨p, c, tmp, -, -, hstep⟩ | ⟨-, hboard, -⟩
  · rw [hstep]
    exact hm
  · rw [hboard]
    exact hm

theorem setUp_board (port : SetUp) :
    port.board.mapped = true ∧ Shows port.board.dat fun _ => false := by
  obtain ⟨⟨mapped, con, dat, writes⟩, board, hmapped, hsetup⟩ := port
  obtain rfl : mapped = true := hmapped
  obtain rfl := Option.some.inj ((setupPort_eq con dat writes).1.symm.trans hsetup)
  exact ⟨rfl, shows_off dat⟩

/-- In a run whose commands all write what they have seen of the other LEDs, every LED is as its
last completed command says whenever no command is in progress; and those are the runs that keep
the LEDs so in every state. -/
theorem commands_kept (port : SetUp) (acts : List (Act P)) :
    ((machine port P).Meets Fresh acts → ∀ past, past <+: acts →
      Resting ((machine port P).run past) → Kept ((machine port P).run past)) ∧
    ((∀ past, past <+: acts → Kept ((machine port P).run past)) ↔
      (machine port P).Meets Fresh acts) := by
  obtain ⟨hmapped, hoff⟩ := setUp_board port
  have hiff : (∀ past, past <+: acts → Kept ((machine port P).run past)) ↔
      (machine port P).Meets Fresh acts := by
    apply Machine.safe_iff_meets_of_invariant (J := fun s => s.board.mapped = true) hmapped hoff
    · exact fun s a hm => step_mapped hm a
    · intro s a hm hkept
      show Kept (s.step a) ↔ Fresh s a
      rcases step_cases hm a with ⟨p, c, tmp, rfl, ht, hstep⟩ | ⟨hfresh, hboard, hcompleted⟩
      · rw [hstep, kept_written_iff hkept]
        constructor
        · intro hfresh c' tmp' ht'
          obtain ⟨rfl, rfl⟩ := Task.write.inj (ht.symm.trans ht')
          exact hfresh
        · exact fun hfresh => hfresh c tmp ht
      · apply iff_of_true _ hfresh
        rw [Kept, hboard, hcompleted]
        exact hkept
  exact ⟨fun hmeets past hpast _ => hiff.mpr hmeets past hpast, hiff⟩

/-- A process that runs alone carries out the `demo_write` of the driver. -/
theorem run_alone {port : SetUp} {s : State P} (hm : s.board.mapped = true) {p : P}
    (hp : s.task p = .idle) (w : Write) :
    ∃ ret, Miscled.demoWrite s.board w =
      some (ret, ((machine port P).runFrom s [.demoWrite p w, .run p, .run p]).board) := by
  rcases checkWrite_cases w with ⟨c, command, hok, -, henc⟩ | ⟨-, ret, -, herr⟩
  · refine ⟨2, ?_⟩
    have hread : s.step (.demoWrite p w) = s.goto p (.read c) := by
      simp only [State.step, hp, hok]
    simp only [Machine.runFrom, List.foldl_cons, List.foldl_nil, machine, hread]
    simp [Miscled.demoWrite, hok, ledonoff, State.step, State.goto, Board.ioread8, Board.ioread32,
      Board.iowrite8, Board.iowrite32, hm]
  · refine ⟨ret, ?_⟩
    simp [Miscled.demoWrite, herr, Machine.runFrom, machine, State.step, hp]

/-- The port of a board that comes up with all its registers zero. -/
def zeroPort : SetUp := ⟨⟨true, 0, 0, 0⟩, ⟨true, 0x1111, 0xf, 2⟩, rfl, rfl⟩

/-- Two processes switch on LED 1 and LED 2 at the same time. -/
def overlap : List (Act Bool) :=
  [.demoWrite true ⟨[1, 1], .success⟩, .demoWrite false ⟨[1, 2], .success⟩,
    .run true, .run false, .run true, .run false]

/-- The second of two commands switches the LED of the first one off again. -/
theorem overlap_undoes_command :
    Resting ((machine zeroPort Bool).run overlap) ∧
      ¬ Kept ((machine zeroPort Bool).run overlap) := by
  constructor
  · intro p
    cases p with
    | false => rfl
    | true => rfl
  · intro h
    have hfirst := h ⟨0, by decide⟩
    revert hfirst
    decide

end KernelDrivers.Leds.Concurrent
