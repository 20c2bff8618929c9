import KernelDrivers.Framework.KernelTimer
import KernelDrivers.Framework.WrappingClock

namespace KernelDrivers.Time

open Framework Framework.WrappingClock

/-- A value that `HZ` may be configured to. -/
structure Hz where
  val : Nat
  pos : 0 < val
  bound : val ≤ 1000

namespace Timer

/-- What `add_timer` and `mod_timer` make of an expiry when the clock shows `jiffies`: they may put
it off by a 256th of its delay, the default slack of a timer, so that it expires with others. -/
structure Slack where
  apply : BitVec 32 → BitVec 32 → BitVec 32
  bound : ∀ jiffies delay, delay < 2147483648 → ∃ extra, extra ≤ delay / 256 ∧
    apply jiffies (jiffies + BitVec.ofNat 32 delay) = jiffies + BitVec.ofNat 32 (delay + extra)

/-- Kernels without slack leave the expiry as it is. -/
instance : Inhabited Slack :=
  ⟨⟨fun _ expires => expires, fun _ delay _ => ⟨0, Nat.zero_le (delay / 256), rfl⟩⟩⟩

/-- A timer runs once its time is not before the clock, which showed `jiffies` when the module was
loaded. -/
def due (jiffies : BitVec 32) (now : Nat) (expires : BitVec 32) : Bool :=
  !before (after jiffies now) expires

/-- `jiffies + SEC*HZ`, read `now` ticks after the load. -/
def jiffiesPlus (SEC : Nat) (HZ : Hz) (jiffies : BitVec 32) (now : Nat) : BitVec 32 :=
  after jiffies now + BitVec.ofNat 32 (SEC * HZ.val)

/-- What `add_timer` or `mod_timer` sets the timer to with `jiffies + SEC*HZ`. -/
def started (slack : Slack) (SEC : Nat) (HZ : Hz) (jiffies : BitVec 32) (now : Nat) : BitVec 32 :=
  slack.apply (after jiffies now) (jiffiesPlus SEC HZ jiffies now)

/-- `do_timer_fool`, `do_timer`, which only print. -/
def once (slack : Slack) (SEC : Nat) (HZ : Hz) (jiffies : BitVec 32) :
    KernelTimer (BitVec 32) where
  first := started slack SEC HZ jiffies 0
  due := due jiffies
  next _ _ := none

/-- With `mod_timer(&timer, jiffies + SEC*HZ)` behind the message. -/
def again (slack : Slack) (SEC : Nat) (HZ : Hz) (jiffies : BitVec 32) :
    KernelTimer (BitVec 32) where
  first := started slack SEC HZ jiffies 0
  due := due jiffies
  next now _ := some (started slack SEC HZ jiffies now)

/-- time/timer/demo0.c and demo1.c, and kernel_code_v1/kernel_time/demo4.c to demo7.c. -/
inductive Demo where
  | timer0
  | timer1
  | kernelTime4
  | kernelTime5
  | kernelTime6
  | kernelTime7

namespace Demo

def SEC : Demo → Nat
  | timer0 | timer1 => 3
  | kernelTime4 | kernelTime5 | kernelTime6 | kernelTime7 => 5

def repeats : Demo → Bool
  | timer0 | kernelTime4 => false
  | timer1 | kernelTime5 | kernelTime6 | kernelTime7 => true

/-- `kernelTime7` is defined with `SEC*HZ` and adds `jiffies` to it. -/
def timer (demo : Demo) (slack : Slack) (HZ : Hz) (jiffies : BitVec 32) : KernelTimer (BitVec 32) :=
  match demo with
  | timer0 => once slack 3 HZ jiffies
  | timer1 => again slack 3 HZ jiffies
  | kernelTime4 => once slack 5 HZ jiffies
  | kernelTime5 | kernelTime6 => again slack 5 HZ jiffies
  | kernelTime7 => { again slack 5 HZ jiffies with
      first := slack.apply (after jiffies 0) (BitVec.ofNat 32 (5 * HZ.val) + jiffies) }

end Demo

variable {slack : Slack} {SEC : Nat} {HZ : Hz} {jiffies : BitVec 32}

variable (slack HZ jiffies) in
/-- A timer is started for a moment that is a period ahead, or a little more. -/
theorem started_eq (hperiod : SEC * HZ.val < 1073741824) (now : Nat) :
    ∃ e, started slack SEC HZ jiffies now = after jiffies e ∧ now + SEC * HZ.val ≤ e ∧
      e ≤ now + (SEC * HZ.val + SEC * HZ.val / 256) := by
  obtain ⟨extra, hextra, happly⟩ :=
    slack.bound (after jiffies now) (SEC * HZ.val) (by omega)
  refine ⟨now + (SEC * HZ.val + extra), ?_, by omega, by omega⟩
  rw [started, jiffiesPlus, happly, after, after, BitVec.add_assoc, ← BitVec.ofNat_add]

theorem due_iff {e now : Nat} (hpast : e < now + 2147483648) (hfuture : now < e + 2147483648) :
    due jiffies now (after jiffies e) = true ↔ e ≤ now := by
  have hbefore := before_after_iff jiffies (e := now) (d := e) (by omega) (by omega)
  rw [due, Bool.not_eq_true', ← Bool.not_eq_true, hbefore, Nat.not_lt]

/-- The timer is set to a moment that is a period behind the last message, and at most a period
and its slack ahead. -/
def Armed (period : Nat) (jiffies : BitVec 32) (last now : Nat) (expires : BitVec 32) : Prop :=
  ∃ e, expires = after jiffies e ∧ last + period ≤ e ∧ e ≤ now + (period + period / 256)

theorem spaced (T : KernelTimer (BitVec 32)) (hperiod : SEC * HZ.val < 1073741824)
    (hfirst : T.first = started slack SEC HZ jiffies 0) (hdue : T.due = due jiffies)
    (hnext : ∀ now e e', T.next now e = some e' → e' = started slack SEC HZ jiffies now) :
    T.Spaced (fun a b => a + SEC * HZ.val ≤ b) (Armed (SEC * HZ.val) jiffies) fun _ _ => True where
  first := by
    rw [hfirst]
    exact started_eq slack HZ jiffies hperiod 0
  wait last now expires h := by
    obtain ⟨e, he, hlast, hahead⟩ := h
    exact ⟨e, he, hlast, by omega⟩
  fire last now expires hle h hexpired := by
    obtain ⟨e, rfl, hlast, hahead⟩ := h
    refine ⟨?_, trivial⟩
    by_contra hearly
    rw [hdue, due_iff (by omega) (by omega)] at hexpired
    omega
  late last now h := by omega
  lateFired _ _ _ := trivial
  again last now expires expires' hle _ h := by
    obtain ⟨e, he, hbehind, hahead⟩ := started_eq slack HZ jiffies hperiod now
    rw [hnext now expires expires' h, he]
    exact ⟨e, rfl, by omega, hahead⟩

/-- The timer is set to a moment that is not after `t`, and not long before it. -/
def Latest (period : Nat) (jiffies : BitVec 32) (t : Nat) (expires : BitVec 32) : Prop :=
  ∃ e, expires = after jiffies e ∧ e ≤ t ∧ t ≤ e + period

theorem bounded (T : KernelTimer (BitVec 32)) (hperiod : SEC * HZ.val < 1073741824)
    (hfirst : T.first = started slack SEC HZ jiffies 0) (hdue : T.due = due jiffies)
    (hnext : ∀ now e, T.next now e = some (started slack SEC HZ jiffies now)) :
    T.Bounded (SEC * HZ.val + SEC * HZ.val / 256) (Latest (SEC * HZ.val) jiffies) where
  first := by
    obtain ⟨e, he, hbehind, hahead⟩ := started_eq slack HZ jiffies hperiod 0
    exact ⟨e, hfirst.trans he, by omega, by omega⟩
  due t expires h := by
    obtain ⟨e, rfl, hle, hlate⟩ := h
    rw [hdue, due_iff (by omega) (by omega)]
    exact hle
  next now expires := by
    obtain ⟨e, he, hbehind, hahead⟩ := started_eq slack HZ jiffies hperiod now
    exact ⟨_, hnext now expires, e, he, by omega, by omega⟩

namespace Demo

variable (demo : Demo) (slack : Slack) (HZ : Hz) (jiffies : BitVec 32)

theorem period_lt : demo.SEC * HZ.val < 1073741824 := by
  have hbound := HZ.bound
  cases demo <;> simp only [SEC] <;> omega

theorem timer_first :
    (demo.timer slack HZ jiffies).first = started slack demo.SEC HZ jiffies 0 := by
  cases demo with
  | kernelTime7 =>
    have hsame : BitVec.ofNat 32 (5 * HZ.val) + jiffies = jiffiesPlus 5 HZ jiffies 0 := by
      rw [jiffiesPlus, after, BitVec.add_zero, BitVec.add_comm]
    show slack.apply (after jiffies 0) _ = slack.apply (after jiffies 0) _
    rw [hsame]
    rfl
  | timer0 | timer1 | kernelTime4 | kernelTime5 | kernelTime6 => rfl

theorem timer_due : (demo.timer slack HZ jiffies).due = due jiffies := by
  cases demo <;> rfl

theorem timer_next (now : Nat) (expires : BitVec 32) :
    (demo.timer slack HZ jiffies).next now expires =
      if demo.repeats then some (started slack demo.SEC HZ jiffies now) else none := by
  cases demo <;> rfl

/-- Any run of a timer demo, from any value of `jiffies` at its load, however often this wraps: the
messages come at least `SEC*HZ` ticks after the load and after one another, and only once where the
handler does not start the timer again. A timer that is started again and served at once prints
again within `SEC*HZ` ticks and the slack. The exit ends with the handler that runs, and then
nothing is pending and nothing more is printed. -/
theorem timers_keep_period (acts : List KernelTimer.Act) :
    (0 :: ((demo.timer slack HZ jiffies).machine.run acts).printed).IsChain
        (fun a b => a + demo.SEC * HZ.val ≤ b) ∧
      (demo.repeats = false →
        ((demo.timer slack HZ jiffies).machine.run acts).printed.length ≤ 1) ∧
      (demo.repeats = true → (demo.timer slack HZ jiffies).Timely
        (demo.SEC * HZ.val + demo.SEC * HZ.val / 256) acts) ∧
      (demo.timer slack HZ jiffies).Unloads acts := by
  have hperiod := demo.period_lt HZ
  have hfirst := demo.timer_first slack HZ jiffies
  have hdue := demo.timer_due slack HZ jiffies
  have hnext := demo.timer_next slack HZ jiffies
  refine ⟨?_, ?_, ?_, KernelTimer.run_unloads _ acts⟩
  · have hspaced := spaced (demo.timer slack HZ jiffies) hperiod hfirst hdue ?_
    · exact (KernelTimer.run_keeping hspaced acts).chain
    · intro now e e' he
      rw [hnext] at he
      cases hrepeats : demo.repeats with
      | false => simp [hrepeats] at he
      | true =>
        rw [hrepeats, if_pos rfl] at he
        exact (Option.some.inj he).symm
  · intro hrepeats
    apply KernelTimer.run_once
    intro now e
    rw [hnext, hrepeats]
    rfl
  · intro hrepeats
    have hbounded := bounded (demo.timer slack HZ jiffies) hperiod hfirst hdue ?_
    · exact KernelTimer.run_timely hbounded acts
    · intro now e
      rw [hnext, hrepeats, if_pos rfl]

end Demo

end Timer

namespace Hrtimer

def SEC : Nat := 6

/-- `hrtimer_forward`, as the kernel documents it: the expiry moves on by whole intervals, so that
it lies behind `now`. -/
def hrtimerForward (expires now interval : Nat) : Nat :=
  if now < expires then expires
  else
    let expires := expires + (now - expires) / interval * interval
    if now < expires then expires else expires + interval

theorem forward_spec {expires now interval : Nat} (hpos : 0 < interval)
    (hle : expires ≤ now) :
    now < hrtimerForward expires now interval ∧
      ∃ k, hrtimerForward expires now interval = expires + k * interval := by
  have hdiv := Nat.div_add_mod (now - expires) interval
  have hmod := Nat.mod_lt (now - expires) hpos
  rw [Nat.mul_comm] at hdiv
  have hlast : ¬ now < expires + (now - expires) / interval * interval := by omega
  rw [hrtimerForward, if_neg (Nat.not_lt.mpr hle)]
  simp only [if_neg hlast]
  refine ⟨by omega, (now - expires) / interval + 1, ?_⟩
  rw [Nat.succ_mul, Nat.add_assoc]

/-- The expiry is a multiple of the interval, and the last message was in an interval before it. -/
def Armed (interval last expires : Nat) : Prop :=
  interval ∣ expires ∧ last / interval < expires / interval

theorem spaced (T : KernelTimer Nat) {interval : Nat} (hpos : 0 < interval)
    (hfirst : T.first = interval) (hdue : ∀ now e, T.due now e = true ↔ e ≤ now)
    (hnext : ∀ now e e', T.next now e = some e' → e' = hrtimerForward e now interval) :
    T.Spaced (fun a b => a / interval < b / interval) (fun last _ e => Armed interval last e)
      fun now e => interval ∣ e ∧ e ≤ now where
  first := by
    rw [hfirst, Armed, Nat.zero_div, Nat.div_self hpos]
    exact ⟨Nat.dvd_refl _, Nat.zero_lt_one⟩
  wait _ _ _ h := h
  fire last now e hle h hexpired := by
    have he := (hdue now e).mp hexpired
    exact ⟨h.2.trans_le (Nat.div_le_div_right he), h.1, he⟩
  late last now h := h.trans_le (Nat.div_le_div_right (Nat.le_succ now))
  lateFired now e h := ⟨h.1, Nat.le_succ_of_le h.2⟩
  again last now e e' hle h he := by
    obtain ⟨hbehind, k, hk⟩ := forward_spec hpos h.2
    rw [← hnext now e e' he] at hbehind hk
    have hdvd : interval ∣ e' := by
      rw [hk]
      exact Nat.dvd_add h.1 (Nat.dvd_mul_left interval k)
    refine ⟨hdvd, ?_⟩
    rw [Nat.div_lt_iff_lt_mul hpos, Nat.div_mul_cancel hdvd]
    omega

end Hrtimer

end KernelDrivers.Time
