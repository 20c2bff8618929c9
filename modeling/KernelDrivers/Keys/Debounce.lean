import KernelDrivers.Framework.Machine
import KernelDrivers.Keys.Device

namespace KernelDrivers.Keys

open Framework Kernel

/-- The board and the driver of keys/key.c. `timer` and `task` hold the key their data
points to while they are armed and scheduled. -/
structure Debouncer where
  level : Key → Bool
  timer : Option Key
  task : Option Key
  dev : KeyDev

inductive Step where
  | edge (key : Key)
  | expire
  | tasklet
  deriving DecidableEq

/-- What `kbuf` is to hold for a key that is down, or up. -/
def levelByte (down : Bool) : Byte := if down then 1 else 0

namespace Debouncer

def start : Debouncer := ⟨fun _ => false, none, none, keys.fresh⟩

/-- `timer.data = dev; mod_timer(..)`: an armed timer is armed anew. -/
def doKeyIrqTp (s : Debouncer) (dev : Key) : Debouncer := { s with timer := some dev }

/-- `task.data = data; tasklet_schedule(..)`: a scheduled tasklet stays scheduled once. -/
def doTimerKey (s : Debouncer) (data : Key) : Debouncer := { s with task := some data }

def step (s : Debouncer) : Step → Debouncer
  | .edge key =>
    doKeyIrqTp { s with level := Function.update s.level key (!s.level key) } key
  | .expire =>
    match s.timer with
    | none => s
    | some data => doTimerKey { s with timer := none } data
  | .tasklet =>
    match s.task with
    | none => s
    | some data => { s with task := none, dev := doBhKey s.dev data }

def machine : Machine Debouncer Step := ⟨start, step⟩

/-- The timer is not armed and the tasklet is not scheduled. -/
def Quiet (s : Debouncer) : Prop := s.timer = none ∧ s.task = none

/-- The reported states are the physical levels. -/
def Follows (s : Debouncer) : Prop := ∀ i, s.dev.kbuf i = levelByte (s.level i)

/-- The driver once a scheduled tasklet has run. -/
def settled (s : Debouncer) : KeyDev :=
  match s.task with
  | none => s.dev
  | some data => doBhKey s.dev data

/-- Of all keys only `key` has a level that differs from its reported state, and its
counter has not wrapped to an even negative number. -/
structure LoneEdge (s : Debouncer) (key : Key) : Prop where
  others : ∀ i, i ≠ key → s.dev.kbuf i = levelByte (s.level i)
  differs : s.dev.kbuf key ≠ 0 ↔ s.level key = false
  unwrapped : ¬ ((s.dev.cnt key).toInt < 0 ∧ (s.dev.cnt key).toInt % 2 = 0)

/-- The timer expires only with a lone edge of the key it was armed for. -/
def ExpiresClean (s : Debouncer) : Step → Prop
  | .expire => ∀ key, s.timer = some key → s.LoneEdge key
  | _ => True

theorem step_expire {s : Debouncer} {key : Key} (ht : s.timer = some key) :
    s.step .expire = { s with timer := none, task := some key } := by
  simp only [step, ht, doTimerKey]

theorem step_tasklet {s : Debouncer} {key : Key} (ht : s.task = some key) :
    s.step .tasklet = { s with task := none, dev := doBhKey s.dev key } := by
  simp only [step, ht]

/-- `kbuf` is what the counters say. -/
def Encoded (s : Debouncer) : Prop := ∀ i, s.dev.kbuf i = keys.encode (s.dev.cnt i)

theorem start_encoded : start.Encoded := by
  unfold Encoded
  decide

theorem step_encoded {s : Debouncer} (h : s.Encoded) (a : Step) : (s.step a).Encoded := by
  cases a with
  | edge key => exact h
  | expire =>
    cases ht : s.timer with
    | none => simpa only [step, ht] using h
    | some data =>
      rw [step_expire ht]
      exact h
  | tasklet =>
    cases ht : s.task with
    | none => simpa only [step, ht] using h
    | some data =>
      intro i
      rw [step_tasklet ht]
      simp only [doBhKey, Driver.event]
      by_cases hi : i = data
      · subst hi
        rw [Function.update_self, Function.update_self]
      · rw [Function.update_of_ne hi, Function.update_of_ne hi]
        exact h i

/-- The value an event reports is zero after an odd count, and otherwise one unless the
counter is negative. -/
theorem encode_succ (cnt : Int32) : keys.encode (cnt + 1) =
    if cnt.toInt % 2 = 1 then 0 else if cnt.toInt < 0 then 255 else 1 := by
  have hmod := succ_mod_two cnt
  have hdef : keys.encode (cnt + 1) = UInt8.ofInt ((cnt + 1) % 2).toInt := rfl
  rw [hdef, hmod]
  by_cases hodd : cnt.toInt % 2 = 1
  · rw [if_pos hodd, if_pos hodd]
    rfl
  · rw [if_neg hodd, if_neg hodd]
    by_cases hneg : cnt.toInt < 0
    · rw [if_pos hneg, if_pos hneg]
      rfl
    · rw [if_neg hneg, if_neg hneg]
      rfl

theorem encode_eq_zero_iff (cnt : Int32) : keys.encode cnt = 0 ↔ cnt.toInt % 2 = 0 := by
  have h2 : (2 : Int32).toInt = 2 := rfl
  have hdef : keys.encode cnt = UInt8.ofInt (cnt % 2).toInt := rfl
  rw [hdef, Int32.toInt_mod, h2, tmod_two]
  by_cases heven : cnt.toInt % 2 = 0
  · rw [if_pos heven]
    exact ⟨fun _ => heven, fun _ => rfl⟩
  · rw [if_neg heven]
    have hne : UInt8.ofInt (if cnt.toInt < 0 then -1 else 1) ≠ 0 := by
      by_cases hneg : cnt.toInt < 0
      · rw [if_pos hneg]
        decide
      · rw [if_neg hneg]
        decide
    exact ⟨fun h => absurd h hne, fun h => absurd h heven⟩

/-- The event of `key` brings the reported states to the levels exactly when it is a lone
edge. -/
theorem event_follows_iff {s : Debouncer} (h : s.Encoded) (key : Key) :
    (∀ i, (doBhKey s.dev key).kbuf i = levelByte (s.level i)) ↔ s.LoneEdge key := by
  have hself : (doBhKey s.dev key).kbuf key = keys.encode (s.dev.cnt key + 1) := by
    simp [doBhKey, Driver.event]
  have hother (i : Key) (hi : i ≠ key) : (doBhKey s.dev key).kbuf i = s.dev.kbuf i := by
    simp [doBhKey, Driver.event, hi]
  have hzero : s.dev.kbuf key = 0 ↔ (s.dev.cnt key).toInt % 2 = 0 := by
    rw [h key]
    exact encode_eq_zero_iff _
  have hkey : keys.encode (s.dev.cnt key + 1) = levelByte (s.level key) ↔
      (s.dev.kbuf key ≠ 0 ↔ s.level key = false) ∧
        ¬ ((s.dev.cnt key).toInt < 0 ∧ (s.dev.cnt key).toInt % 2 = 0) := by
    rw [encode_succ, ne_eq, hzero]
    by_cases hodd : (s.dev.cnt key).toInt % 2 = 1
    · have hne : (s.dev.cnt key).toInt % 2 ≠ 0 := by omega
      rw [if_pos hodd]
      cases s.level key <;> simp [levelByte, hne]
    · have heven : (s.dev.cnt key).toInt % 2 = 0 := by omega
      rw [if_neg hodd]
      by_cases hneg : (s.dev.cnt key).toInt < 0
      · rw [if_pos hneg]
        cases s.level key <;> simp [levelByte, heven, hneg]
      · rw [if_neg hneg]
        cases s.level key <;> simp [levelByte, heven, hneg]
  constructor
  · intro hall
    have hk := hkey.mp (hself.symm.trans (hall key))
    exact ⟨fun i hi => (hother i hi).symm.trans (hall i), hk.1, hk.2⟩
  · intro hlone i
    by_cases hi : i = key
    · subst hi
      exact hself.trans (hkey.mpr ⟨hlone.differs, hlone.unwrapped⟩)
    · exact (hother i hi).trans (hlone.others i hi)

/-- Unless the timer is armed, the states are the levels once the tasklet has run. -/
def Tracks (s : Debouncer) : Prop :=
  s.timer = none → ∀ i, s.settled.kbuf i = levelByte (s.level i)

theorem step_tracks {s : Debouncer} (he : s.Encoded) (h : s.Tracks) {a : Step}
    (hc : s.ExpiresClean a) : (s.step a).Tracks := by
  cases a with
  | edge key =>
    intro hnone
    simp [step, doKeyIrqTp] at hnone
  | expire =>
    cases ht : s.timer with
    | none =>
      simp only [step, ht]
      exact h
    | some key =>
      rw [step_expire ht]
      intro _
      exact (event_follows_iff he key).mpr (hc key ht)
  | tasklet =>
    cases ht : s.task with
    | none =>
      simp only [step, ht]
      exact h
    | some key =>
      rw [step_tasklet ht]
      intro hnone
      have hsettled := h hnone
      simpa only [settled, ht] using hsettled

theorem run_encoded (steps : List Step) : (machine.run steps).Encoded :=
  machine.run_invariant start_encoded (fun _ a h => step_encoded h a) steps

/-- In a run whose every expiry meets a lone edge, `kbuf` holds the physical levels
whenever neither timer nor tasklet is pending; and at any expiry of any run a lone edge is
what it takes for the bottom half to bring `kbuf` to the levels. -/
theorem debounced_follows (steps : List Step) :
    (machine.Meets ExpiresClean steps →
      (machine.run steps).Quiet → (machine.run steps).Follows) ∧
    ∀ key, (machine.run steps).timer = some key →
      ((machine.run (steps ++ [.expire, .tasklet])).Follows ↔
        (machine.run steps).LoneEdge key) := by
  constructor
  · intro hmeets hquiet
    have htracks : (machine.run steps).Encoded ∧ (machine.run steps).Tracks := by
      refine Machine.run_invariant_of_meets (I := fun s => s.Encoded ∧ s.Tracks)
        ⟨start_encoded, ?_⟩ ?_ hmeets
      · intro _
        decide
      · intro s a hc ih
        exact ⟨step_encoded ih.1 a, step_tracks ih.1 ih.2 hc⟩
    have hall := htracks.2 hquiet.1
    simp only [settled, hquiet.2] at hall
    exact hall
  · intro key ht
    have he := run_encoded steps
    have hend : machine.run (steps ++ [.expire, .tasklet]) =
        { machine.run steps with
          timer := none, task := none, dev := doBhKey (machine.run steps).dev key } := by
      have hexpired : machine.run (steps ++ [.expire]) =
          { machine.run steps with timer := none, task := some key } := by
        rw [Machine.run_concat]
        exact step_expire ht
      have happend : steps ++ [.expire, .tasklet] = (steps ++ [.expire]) ++ [.tasklet] := by simp
      rw [happend, Machine.run_concat, hexpired]
      exact step_tasklet (s := { machine.run steps with timer := none, task := some key }) rfl
    rw [hend]
    exact event_follows_iff he key

/-- Two keys go down within the time of the timer: only the second one is reported. -/
theorem debounced_merges_keys :
    ¬ ((machine.run [.edge 0, .edge 1, .expire, .tasklet]).Quiet →
      (machine.run [.edge 0, .edge 1, .expire, .tasklet]).Follows) := by
  intro h
  have hfollows := h ⟨by decide, by decide⟩ 0
  exact absurd hfollows (by decide)

end Debouncer

end KernelDrivers.Keys
