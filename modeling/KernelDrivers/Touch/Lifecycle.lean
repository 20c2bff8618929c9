import KernelDrivers.Touch.Device

namespace KernelDrivers.Touch.Lifecycle

open Framework Kernel

/-- How every acquisition of a probe would end; `none` and `true` stand for success. -/
structure Fates where
  kzalloc : Bool
  gpioRequest : Option Err
  requestIrq : Option Err
  inputAllocateDevice : Bool
  inputRegisterDevice : Option Err

abbrev Main := List (MainStmt Obj Stmt)

/-- What `ft5206_probe` does, and what it returns. -/
structure Probe where
  main : Main
  ret : Int

def Probe.after (main : Main) (p : Probe) : Probe := ⟨main ++ p.main, p.ret⟩

/-- The first of the labels that the errors go to. -/
def error0 (ret : Int) : Probe := ⟨[.stmt .kfree], ret⟩

def error1 (ret : Int) : Probe := (error0 ret).after [.stmt .gpioFree]

def error2 (ret : Int) : Probe := (error1 ret).after [.stop .top]

def error3 (ret : Int) : Probe := (error2 ret).after [.stmt .inputFreeDevice]

def ft5206Probe (f : Fates) : Probe :=
  if f.kzalloc = false then ⟨[.stmt (.kzalloc false)], -enomem⟩
  else Probe.after [.stmt (.kzalloc true), .stmt .i2cSetClientdata] <|
    match f.gpioRequest with
    | some e => (error0 e.code).after [.stmt (.gpioRequest false)]
    | none => Probe.after [.stmt (.gpioRequest true), .stmt .gpioToIrq] <|
      match f.requestIrq with
      | some e => error1 e.code
      | none =>
        -- a null pointer is no error to `IS_ERR`
        Probe.after [.start .top, .stmt (.inputAllocateDevice f.inputAllocateDevice),
            .stmt .setBits] <|
          match f.inputRegisterDevice with
          | some e => (error3 e.code).after [.stmt (.inputRegisterDevice false)]
          | none => ⟨[.stmt (.inputRegisterDevice true), .stmt .initWork], 0⟩

def ft5206Remove : Main :=
  [.stmt .inputUnregisterDevice, .stop .top, .stmt .gpioFree, .stmt .kfree]

/-- A probe, and a remove if the probe returned 0. -/
def lifecycle (f : Fates) : Main :=
  (ft5206Probe f).main ++ if (ft5206Probe f).ret = 0 then ft5206Remove else []

def start (f : Fates) : Activity Obj Stmt Ts :=
  ⟨.fresh .nothing, fun _ => false, fun _ => false, fun _ => none, lifecycle f⟩

abbrev Act := Handlers.Act Obj Recv

def machine (D : Driver) (gate : Nat → Bool) (f : Fates) :
    Machine (Activity Obj Stmt Ts) Act := (handlers D gate).machine (start f)

/-- No statement has used what is not there, and once the main thread has returned nothing
of the driver is left. -/
structure Safe (s : Activity Obj Stmt Ts) : Prop where
  faultless : s.data.faults = []
  gone : s.Returned → s.data.own.mem ≠ .live ∧
    s.data.own.tsdev ≠ .allocated ∧ s.data.own.tsdev ≠ .registered ∧ s.data.own.gpio = false ∧
    s.live .top = false ∧ s.running .top = none ∧ s.Quiet .bottom

/-- Interrupts come only between the end of the probe and the begin of the remove, the input
device can be allocated, and no handler is at work when the remove begins. -/
def Clean (D : Driver) (gate : Nat → Bool) (s : Activity Obj Stmt Ts) : Act → Prop
  | .enter .top _ => (handlers D gate).CanEnter s .top → s.data.own = .probed
  | .main => s.main.head? ≠ some (.stmt (.inputAllocateDevice false)) ∧
    (s.main.head? = some (.stmt .inputUnregisterDevice) →
      s.running .top = none ∧ s.Quiet .bottom)
  | _ => True

instance (s : Activity Obj Stmt Ts) (o : Obj) : Decidable (s.Quiet o) :=
  inferInstanceAs (Decidable (_ ∧ _))

instance (D : Driver) (gate : Nat → Bool) (s : Activity Obj Stmt Ts) :
    ∀ a, Decidable (Clean D gate s a)
  | .enter .top _ => inferInstanceAs (Decidable (_ → _))
  | .enter .bottom _ => .isTrue trivial
  | .advance _ => .isTrue trivial
  | .main => inferInstanceAs (Decidable (_ ∧ (_ → _ ∧ _)))

/-- The main thread finds what it uses as long as nothing fails that must not fail, only
removes a probed device by unregistering it first, and ends with nothing left. -/
def Sound : Main → Owned → Bool → Prop
  | [], own, live => own.mem ≠ .live ∧ own.tsdev ≠ .allocated ∧ own.tsdev ≠ .registered ∧
    own.gpio = false ∧ live = false ∧ own ≠ .probed
  | .start .top :: main, own, _ => Sound main own true
  | .stop .top :: main, own, _ => Sound main own false
  | .stmt c :: main, own, live => c ≠ .inputAllocateDevice false →
    own.allows c = true ∧ c ≠ .scheduleWork ∧ (own = .probed → c = .inputUnregisterDevice) ∧
      Sound main (own.after c) live
  | _ :: _, _, _ => False

theorem lifecycle_sound (f : Fates) : Sound (lifecycle f) .nothing false := by
  have hcode (e : Err) : e.code ≠ 0 := Int.ne_of_lt e.neg
  have henomem : -enomem ≠ 0 := by decide
  unfold lifecycle ft5206Probe
  cases f.kzalloc with
  | false => simp [henomem, Sound, Owned.allows, Owned.after, Owned.nothing, Owned.probed]
  | true =>
    cases f.gpioRequest with
    | some e =>
      simp [hcode, Probe.after, error0, Sound, Owned.allows, Owned.after, Owned.nothing,
        Owned.probed]
    | none =>
      cases f.requestIrq with
      | some e =>
        simp [hcode, Probe.after, error1, error0, Sound, Owned.allows, Owned.after, Owned.nothing,
          Owned.probed]
      | none =>
        cases f.inputAllocateDevice with
        | false =>
          simp [Probe.after, Sound, Owned.allows, Owned.after, Owned.nothing, Owned.probed]
        | true =>
          cases f.inputRegisterDevice with
          | some e =>
            simp [hcode, Probe.after, error3, error2, error1, error0, Sound, Owned.allows,
              Owned.after, Owned.nothing, Owned.probed]
          | none =>
            simp [Probe.after, ft5206Remove, Sound, Owned.allows, Owned.after, Owned.nothing,
              Owned.probed]

/-- A handler is at work, or about to be. -/
def Active (s : Activity Obj Stmt Ts) : Prop := s.running .top ≠ none ∨ ¬ s.Quiet .bottom

structure Inv (s : Activity Obj Stmt Ts) : Prop where
  faultless : s.data.faults = []
  probed : Active s → s.data.own = .probed
  sound : Sound s.main s.data.own (s.live .top)
  unqueued : s.queued .top = false
  handled : ∀ o cs, s.running o = some cs → ∀ c ∈ cs,
    Owned.probed.allows c = true ∧ Owned.probed.after c = .probed

variable {D : Driver} {gate : Nat → Bool} {s : Activity Obj Stmt Ts}

theorem body_handled (o : Obj) (ts : Ts) (recv : Recv) :
    ∀ c ∈ (handlers D gate).body o ts recv,
      Owned.probed.allows c = true ∧ Owned.probed.after c = .probed := by
  cases o with
  | top =>
    show ∀ c ∈ doFt5206Top, _
    decide
  | bottom =>
    show ∀ c ∈ doFt5206Bh D recv, _
    unfold doFt5206Bh
    by_cases hret : recv.ret ≠ 31
    · rw [if_pos hret]
      decide
    · rw [if_neg hret]
      intro c hc
      simp only [List.cons_append, List.mem_cons, List.mem_append, List.mem_map,
        List.not_mem_nil, or_false] at hc
      rcases hc with rfl | ⟨e, -, rfl⟩ | rfl | rfl <;>
        simp [Owned.allows, Owned.after, Owned.probed]

/-- A handler enters only a probed driver. -/
theorem enter_probed (h : Inv s) {o : Obj} {recv : Recv} (hclean : Clean D gate s (.enter o recv))
    (hen : (handlers D gate).CanEnter s o) : s.data.own = .probed := by
  cases o with
  | top => exact hclean hen
  | bottom =>
    obtain ⟨hr, hq | ⟨-, hraise⟩⟩ := hen
    · refine h.probed (Or.inr fun hquiet => ?_)
      exact absurd (hq.symm.trans hquiet.1) (by decide)
    · simp [handlers] at hraise

theorem step_enter (h : Inv s) {o : Obj} {recv : Recv} (hclean : Clean D gate s (.enter o recv)) :
    Inv ((handlers D gate).step s (.enter o recv)) := by
  have hhandled := Handlers.step_left (H := handlers D gate) body_handled h.handled (.enter o recv)
  by_cases hen : (handlers D gate).CanEnter s o
  · rw [Handlers.step_enter hen] at hhandled ⊢
    have hprobed := enter_probed h hclean hen
    refine ⟨h.faultless, fun _ => hprobed, h.sound, ?_, hhandled⟩
    cases o <;> simp [h.unqueued]
  · simp only [Handlers.step, if_neg hen]
    exact h

theorem step_advance (h : Inv s) (o : Obj) : Inv ((handlers D gate).step s (.advance o)) := by
  have hhandled := Handlers.step_left (H := handlers D gate) body_handled h.handled (.advance o)
  cases hr : s.running o with
  | none => simpa only [Handlers.step, hr] using h
  | some cs =>
    have hactive : Active s := by
      cases o with
      | top => exact Or.inl (by simp [hr])
      | bottom => exact Or.inr fun hquiet => by simp [hquiet.2] at hr
    have hprobed := h.probed hactive
    cases cs with
    | nil =>
      rw [Handlers.step_end hr] at hhandled ⊢
      exact ⟨h.faultless, fun _ => hprobed, h.sound, h.unqueued, hhandled⟩
    | cons c cs =>
      obtain ⟨hallows, hafter⟩ := h.handled o _ hr c List.mem_cons_self
      have hown : s.data.own.after c = s.data.own := by rw [hprobed, hafter]
      rw [Handlers.step_exec hr] at hhandled ⊢
      refine ⟨?_, fun _ => ?_, ?_, ?_, hhandled⟩
      · simp [Handlers.perform, handlers, exec, hprobed, hallows, h.faultless]
      · exact hown.trans hprobed
      · show Sound s.main (s.data.own.after c) (s.live .top)
        rw [hown]
        exact h.sound
      · have hne : (handlers D gate).queues c ≠ some .top := by cases c <;> simp [handlers]
        exact (Handlers.perform_queued_of_ne hne).trans h.unqueued

theorem step_main (h : Inv s) (hclean : Clean D gate s .main) :
    Inv ((handlers D gate).step s .main) := by
  obtain ⟨hfaultless, hprobed, hsound, hunqueued, hhandled⟩ := h
  simp only [Handlers.step]
  cases hm : s.main with
  | nil => exact ⟨hfaultless, hprobed, by rw [hm] at hsound ⊢; exact hsound, hunqueued, hhandled⟩
  | cons m rest =>
    simp only [Clean, hm, List.head?_cons] at hclean
    rw [hm] at hsound
    cases m with
    | start o =>
      cases o with
      | top => exact ⟨hfaultless, hprobed, by simpa [Sound] using hsound, hunqueued, hhandled⟩
      | bottom => exact absurd hsound (by simp [Sound])
    | stop o =>
      cases o with
      | bottom => exact absurd hsound (by simp [Sound])
      | top =>
        by_cases hstop : (handlers D gate).CanStop s .top
        · simp only [if_pos hstop]
          refine ⟨hfaultless, fun hactive => hprobed ?_, by simpa [Sound] using hsound, by simp,
            hhandled⟩
          simpa [Active, Activity.Quiet] using hactive
        · simp only [if_neg hstop]
          exact ⟨hfaultless, hprobed, by rw [hm]; exact hsound, hunqueued, hhandled⟩
    | stmt c =>
      obtain ⟨hok, hremove⟩ := hclean
      obtain ⟨hallows, hnosched, honly, hrest⟩ := hsound fun hc => hok (by rw [hc])
      have hqueues (o : Obj) : (handlers D gate).queues c ≠ some o := by
        cases c <;> first | exact absurd rfl hnosched | simp [handlers]
      have hidle : ¬ Active s := by
        intro hactive
        obtain ⟨htop, hquiet⟩ := hremove (by rw [honly (hprobed hactive)])
        exact hactive.elim (fun hne => hne htop) (fun hne => hne hquiet)
      refine ⟨?_, fun hactive => absurd ?_ hidle, hrest, ?_, hhandled⟩
      · simp [Handlers.perform, handlers, exec, hallows, hfaultless]
      · refine hactive.imp id fun hne hquiet => hne ⟨?_, hquiet.2⟩
        exact (Handlers.perform_queued_of_ne (hqueues .bottom)).trans hquiet.1
      · exact (Handlers.perform_queued_of_ne (hqueues .top)).trans hunqueued

theorem start_inv (f : Fates) : Inv (start f) where
  faultless := rfl
  probed hactive := by simp [Active, Activity.Quiet, start] at hactive
  sound := lifecycle_sound f
  unqueued := rfl
  handled o cs hcs := by simp [start] at hcs

theorem Inv.safe (h : Inv s) : Safe s where
  faultless := h.faultless
  gone hret := by
    have hsound := h.sound
    rw [hret] at hsound
    obtain ⟨hmem, halloc, hreg, hgpio, hlive, hnot⟩ := hsound
    have hidle : ¬ Active s := fun hactive => hnot (h.probed hactive)
    simp only [Active, not_or, not_not] at hidle
    exact ⟨hmem, halloc, hreg, hgpio, hlive, hidle.1, hidle.2⟩

/-- In every run of a probe and a remove whose steps are all clean, nothing is used that is
not there, and nothing is left behind. -/
theorem lifecycle_safe (D : Driver) (gate : Nat → Bool) (f : Fates) {acts : List Act}
    (h : (machine D gate f).Meets (Clean D gate) acts) : Safe ((machine D gate f).run acts) := by
  have hinv := (machine D gate f).run_invariant_of_meets (I := Inv) (start_inv f)
    (fun s a hclean hinv => by
      cases a with
      | enter o recv => exact step_enter hinv hclean
      | advance o => exact step_advance hinv o
      | main => exact step_main hinv hclean) h
  exact hinv.safe

def allSucceed : Fates := ⟨true, none, none, true, none⟩

/-- The driver is probed, handles a touch, and is removed. -/
def usedOnce : List Act :=
  List.replicate 9 .main ++
    [.enter .top ⟨31, fun _ => 0⟩, .advance .top, .advance .top, .advance .top,
      .enter .bottom ⟨31, fun _ => 0⟩] ++
    List.replicate 8 (.advance .bottom) ++ List.replicate 4 .main

theorem lifecycle_safe_usedOnce : Safe ((machine kernelCodeV1 (· == 0) allSucceed).run usedOnce) :=
  lifecycle_safe kernelCodeV1 (· == 0) allSucceed (by decide)

/-- The first touch comes before `INIT_WORK`. -/
def earlyTouch : List Act := List.replicate 5 .main ++ [.enter .top ⟨31, fun _ => 0⟩, .advance .top]

/-- There is no memory for the input device. -/
def nullDevice : List Act := List.replicate 7 .main

/-- The work of the last touch runs when the driver has been removed. -/
def lateWork : List Act :=
  List.replicate 9 .main ++
    [.enter .top ⟨31, fun _ => 0⟩, .advance .top, .advance .top, .advance .top] ++
    List.replicate 4 .main ++ [.enter .bottom ⟨31, fun _ => 0⟩, .advance .bottom]

theorem lifecycle_unsafe :
    ¬ Safe ((machine kernelCodeV1 (· == 0) allSucceed).run earlyTouch) ∧
    ¬ Safe ((machine kernelCodeV1 (· == 0)
      { allSucceed with inputAllocateDevice := false }).run nullDevice) ∧
    ¬ Safe ((machine laomits (· == 0) allSucceed).run lateWork) :=
  ⟨fun h => absurd h.faultless (by decide), fun h => absurd h.faultless (by decide),
    fun h => absurd h.faultless (by decide)⟩

end KernelDrivers.Touch.Lifecycle
