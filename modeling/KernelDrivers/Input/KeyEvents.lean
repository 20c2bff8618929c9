import KernelDrivers.Input.Device

namespace KernelDrivers.Input

open Framework Keys

/-- input/app/app.c prints one line for an event, and none for an event of another type. -/
def synLine : String := "..... syn report .....\n"

def keyLine (code : Nat) (down : Bool) : String :=
  "key " ++ toString code ++ "code is " ++ (if down then "down" else "up") ++ ".\n"

/-- `input_device_read`, after the `assert` that a whole event has been read. -/
def inputDeviceRead (ev : InputEvent) : Option String :=
  if ev.type = EV_SYN then
    if ev.code = SYN_REPORT then some synLine
    else if ev.code = SYN_MT_REPORT then some "... syn mt report ...\n"
    else some "... syn other report ...\n"
  else if ev.type = EV_KEY then some (keyLine ev.code (ev.value != 0))
  else if ev.type = EV_REL then
    if ev.code = REL_X then some ("x = " ++ toString ev.value ++ "\n")
    else if ev.code = REL_Y then some ("y = " ++ toString ev.value ++ "\n")
    else some ("rel: " ++ toString ev.code ++ "," ++ toString ev.value ++ "\n")
  else if ev.type = EV_ABS then
    if ev.code = ABS_X ∨ ev.code = ABS_MT_POSITION_X then
      some ("x = " ++ toString ev.value ++ "\n")
    else if ev.code = ABS_Y ∨ ev.code = ABS_MT_POSITION_Y then
      some ("y = " ++ toString ev.value ++ "\n")
    else if ev.code = ABS_PRESSURE ∨ ev.code = ABS_MT_PRESSURE then
      some ((if ev.value ≠ 0 then "down" else "up") ++ " touchscreen.\n")
    else some ("abs: " ++ toString ev.code ++ ", " ++ toString ev.value ++ "\n")
  else none

/-- What the application prints about the events of a device, in their order. -/
def printed (stream : List InputEvent) : List String := stream.filterMap inputDeviceRead

inductive KeyboardDriver where
  | inputKeys
  | subsysKeys

def KeyboardDriver.keyboard : KeyboardDriver → Keyboard
  | .inputKeys => Input.inputKeys
  | .subsysKeys => Input.subsysKeys

/-- The lines about the keys handled from now on, `down` being the keys that are. -/
def lines (D : Keyboard) : (Key → Bool) → List Key → List String
  | _, [] => []
  | down, key :: keys =>
    keyLine (D.code key) (!down key) :: synLine ::
      lines D (Function.update down key (!down key)) keys

/-- The value that is reported for a count. -/
def reported (cnt : Int32) : Int := if cnt % 2 ≠ 0 then 1 else 0

theorem reported_zero : reported 0 = 0 := by decide

theorem inputReportKey_mod (code : Nat) (cnt : Int32) :
    inputReportKey code (cnt % 2).toInt = ⟨EV_KEY, code, reported cnt⟩ := by
  have hzero : (cnt % 2).toInt = 0 ↔ cnt % 2 = 0 := by
    rw [← Int32.toInt_inj]
    rfl
  unfold inputReportKey reported
  by_cases h : cnt % 2 = 0
  · rw [if_pos (hzero.mpr h), if_neg (not_not.mpr h)]
  · rw [if_neg (mt hzero.mp h), if_pos h]

theorem event_stream (D : Keyboard) (kbd : Kbd) (key : Key) :
    (D.event kbd key).stream =
      kbd.stream ++ [⟨EV_KEY, D.code key, reported (kbd.cnt key + 1)⟩, inputSync] := by
  simp only [Keyboard.event, Function.update_self, inputReportKey_mod]

/-- The reported values of a key go to and fro, also behind the wrap of its count. -/
theorem reported_succ (cnt : Int32) : reported (cnt + 1) = 1 - reported cnt := by
  unfold reported
  by_cases h : cnt % 2 = 0
  · rw [if_pos ((succ_mod_two_ne_zero cnt).mpr h), if_neg (not_not.mpr h)]
    rfl
  · rw [if_neg (mt (succ_mod_two_ne_zero cnt).mp h), if_pos h]
    rfl

theorem printed_append (es fs : List InputEvent) : printed (es ++ fs) = printed es ++ printed fs :=
  List.filterMap_append

theorem printed_event (code : Nat) (cnt : Int32) :
    printed [⟨EV_KEY, code, reported cnt⟩, inputSync] =
      [keyLine code (reported cnt != 0), synLine] := by
  simp [printed, inputDeviceRead, EV_KEY, EV_SYN, inputSync]

theorem printed_runFrom (D : Keyboard) (keys : List Key) (kbd : Kbd) :
    printed (D.machine.runFrom kbd keys).stream =
      printed kbd.stream ++ lines D (fun key => reported (kbd.cnt key) != 0) keys := by
  induction keys generalizing kbd with
  | nil => exact (List.append_nil _).symm
  | cons key keys ih =>
    have hflip (cnt : Int32) : (reported (cnt + 1) != 0) = !(reported cnt != 0) := by
      rw [reported_succ]
      unfold reported
      split <;> rfl
    have hdown : (fun k => reported ((D.event kbd key).cnt k) != 0) =
        Function.update (fun k => reported (kbd.cnt k) != 0) key (!(reported (kbd.cnt key) != 0)) := by
      funext k
      by_cases hk : k = key
      · subst hk
        simp only [Keyboard.event, Function.update_self, hflip]
      · simp only [Keyboard.event, Function.update_of_ne hk]
    rw [Machine.runFrom_cons, show D.machine.step kbd key = D.event kbd key from rfl, ih,
      event_stream, printed_append, printed_event, hdown, hflip, lines, List.append_assoc]
    rfl

/-- The values reported with a code. -/
def valuesOf (code : Nat) (stream : List InputEvent) : List Int :=
  (stream.filter fun e => e.type == EV_KEY && e.code == code).map InputEvent.value

def alternating (n : Nat) : List Int := (List.range n).map fun i => if i % 2 = 0 then 1 else 0

theorem KeyboardDriver.code_inj (d : KeyboardDriver) {a b : Key}
    (h : d.keyboard.code a = d.keyboard.code b) : a = b := by
  cases d
  · revert a b
    decide
  · revert a b
    decide

theorem valuesOf_concat (code : Nat) (stream : List InputEvent) (code' : Nat) (v : Int) :
    valuesOf code (stream ++ [⟨EV_KEY, code', v⟩, inputSync]) =
      valuesOf code stream ++ if code' = code then [v] else [] := by
  have hsync : (inputSync.type == EV_KEY) = false := rfl
  unfold valuesOf
  rw [List.filter_append, List.map_append, List.append_cancel_left_eq]
  by_cases h : code' = code <;> simp [h, hsync]

theorem alternating_succ (n : Nat) :
    alternating (n + 1) = alternating n ++ [if n % 2 = 0 then 1 else 0] := by
  simp [alternating, List.range_succ]

theorem keyboard_values (d : KeyboardDriver) (keys : List Key) (key : Key) :
    valuesOf (d.keyboard.code key) (d.keyboard.machine.run keys).stream =
        alternating (keys.count key) ∧
      reported ((d.keyboard.machine.run keys).cnt key) = if keys.count key % 2 = 0 then 0 else 1 := by
  induction keys using List.reverseRecOn with
  | nil => exact ⟨rfl, reported_zero⟩
  | append_singleton keys k ih =>
    obtain ⟨hvalues, hreported⟩ := ih
    rw [Machine.run_concat, show d.keyboard.machine.step _ k = d.keyboard.event _ k from rfl,
      event_stream, valuesOf_concat, hvalues, List.count_append]
    by_cases hk : k = key
    · subst hk
      have hnext : reported ((d.keyboard.machine.run keys).cnt k + 1) =
          if keys.count k % 2 = 0 then 1 else 0 := by
        rw [reported_succ, hreported]
        split <;> rfl
      rw [if_pos rfl, List.count_singleton_self, alternating_succ, hnext]
      refine ⟨rfl, ?_⟩
      simp only [Keyboard.event, Function.update_self, hnext]
      split <;> split <;> omega
    · have hcode : d.keyboard.code k ≠ d.keyboard.code key := fun h => hk (d.code_inj h)
      have hcount : List.count key [k] = 0 := by simp [hk]
      rw [if_neg hcode, List.append_nil, hcount, Nat.add_zero]
      refine ⟨rfl, ?_⟩
      simp only [Keyboard.event, Function.update_of_ne (Ne.symm hk), hreported]

/-- Whatever keys are handled, and however often, the application that reads the events of a
keyboard prints for each of them that the key is down or up, in turn, and the events of each key
carry the values one and zero in turn, so that each of them changes the state of the key. -/
theorem keyboard_alternates (d : KeyboardDriver) (keys : List Key) :
    printed (d.keyboard.machine.run keys).stream = lines d.keyboard (fun _ => false) keys ∧
      ∀ key, valuesOf (d.keyboard.code key) (d.keyboard.machine.run keys).stream =
        alternating (keys.count key) := by
  refine ⟨?_, fun key => (keyboard_values d keys key).1⟩
  have hlines := printed_runFrom d.keyboard keys ⟨fun _ => 0, []⟩
  simp only [reported_zero] at hlines
  exact hlines

end KernelDrivers.Input
