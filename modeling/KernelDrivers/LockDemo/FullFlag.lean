import KernelDrivers.Framework.CriticalSection
import KernelDrivers.Kbufdrv.Locked

namespace KernelDrivers.LockDemo.FullFlag

open Framework Kernel Kbufdrv

/-- What `demo_read` and `demo_write` do not share: the `is_full` they need and the one they
leave, and what they print. -/
structure Half where
  needs : Bool
  leaves : Bool
  opening : String
  closing : String

def demoRead : Half := ⟨true, false, "[kernel]: reading...\n", "[kernel]: finish read...\n"⟩

def demoWrite : Half := ⟨false, true, "[kernel]: writing...\n", "[kernel]: finish write...\n"⟩

inductive Call where
  | read (cnt : BitVec 32)
  | write (cnt : BitVec 32)

namespace Call

def cnt : Call → BitVec 32
  | read cnt => cnt
  | write cnt => cnt

def half : Call → Half
  | read _ => demoRead
  | write _ => demoWrite

end Call

/-- The flag of the driver, and the log of the kernel. -/
structure Dev where
  isFull : Bool
  log : List String

/-- Where a call is behind the lock. -/
inductive Pc where
  | test
  | opening
  | mdelay
  | assign
  | closing

structure Local where
  call : Call
  pc : Pc

/-- `demo_read` and `demo_write`; `ret = cnt` takes the count as an `ssize_t`. -/
def demo : Section Dev Call Local Int where
  init := ⟨false, []⟩
  enter call := if call.cnt = 0 then .inr (-einval) else .inl ⟨call, .test⟩
  body dev l :=
    let half := l.call.half
    let goto (dev : Dev) (pc : Pc) : Dev × (Local ⊕ Int) := (dev, .inl { l with pc })
    match l.pc with
    | .test => if dev.isFull = half.needs then goto dev .opening else (dev, .inr (-ebusy))
    | .opening => goto { dev with log := dev.log ++ [half.opening] } .mdelay
    | .mdelay => goto dev .assign
    | .assign => goto { dev with isFull := half.leaves } .closing
    | .closing => ({ dev with log := dev.log ++ [half.closing] }, .inr l.call.cnt.toInt)

/-- `locks/mutex` and `locks/semaphore` of the byte buffers take their locks the same way. -/
def guardOf {σ : Type} (lk : Locked.Lock σ) : Guard σ :=
  ⟨lk.free, lk.held, lk.acquire, lk.release, lk.acquire_free, lk.acquire_held, lk.release_held⟩

/-- What the driver is for: a place that is full or empty, and calls that are refused or turn it
over at once. -/
def place : SeqSpec Bool Call Int where
  init := false
  step full call :=
    if call.cnt = 0 then (full, -einval)
    else if full = call.half.needs then (!full, call.cnt.toInt)
    else (full, -ebusy)

theorem place_refused {full : Bool} {call : Call} (h0 : call.cnt ≠ 0) (h : full ≠ call.half.needs) :
    place.step full call = (full, -ebusy) := by
  simp only [place, if_neg h0, if_neg h]

theorem place_served {full : Bool} {call : Call} (h0 : call.cnt ≠ 0) (h : full = call.half.needs) :
    place.step full call = (!full, call.cnt.toInt) := by
  simp only [place, if_neg h0, if_pos h]

/-- The log of the kernel goes round these four lines. -/
def round : Nat → String
  | 0 => demoWrite.opening
  | 1 => demoWrite.closing
  | 2 => demoRead.opening
  | _ => demoRead.closing

/-- Where the log stands in the round while the place is as it says. -/
def turn : Bool → Nat
  | false => 0
  | true => 2

def Rounds (log : List String) : Prop := ∀ i line, log[i]? = some line → line = round (i % 4)

theorem Rounds.append {log : List String} (h : Rounds log) {line : String} {k : Nat}
    (hk : log.length % 4 = k) (hline : line = round k) : Rounds (log ++ [line]) := by
  intro i l hi
  rcases Nat.lt_trichotomy i log.length with hlt | rfl | hgt
  · rw [List.getElem?_append_left hlt] at hi
    exact h i l hi
  · rw [List.getElem?_concat_length] at hi
    obtain rfl := Option.some.inj hi
    rw [hk]
    exact hline
  · rw [List.getElem?_eq_none (by simpa using Nat.succ_le_of_lt hgt)] at hi
    cases hi

theorem opening_eq (call : Call) : call.half.opening = round (turn call.half.needs) := by
  cases call <;> rfl

theorem closing_eq (call : Call) : call.half.closing = round (turn call.half.needs + 1) := by
  cases call <;> rfl

theorem leaves_eq (call : Call) : call.half.leaves = !call.half.needs := by
  cases call <;> rfl

theorem turn_not (full : Bool) : turn (!full) = (turn full + 2) % 4 := by
  cases full <;> rfl

theorem turn_succ_lt (full : Bool) : turn full + 1 < 4 := by
  cases full <;> decide

/-- While nobody is inside, the log stands where the flag says. -/
def Rep (full : Bool) (dev : Dev) : Prop :=
  dev.isFull = full ∧ Rounds dev.log ∧ dev.log.length % 4 = turn full

/-- How far a call inside has come with a place that was `full`. -/
structure Mid (full : Bool) (call : Call) (dev : Dev) (l : Local) : Prop where
  same : l.call = call
  asks : call.cnt ≠ 0
  rounds : Rounds dev.log
  at_pc : match l.pc with
    | .test => dev.isFull = full ∧ dev.log.length % 4 = turn full
    | .opening => full = call.half.needs ∧ dev.isFull = full ∧ dev.log.length % 4 = turn full
    | .mdelay | .assign =>
      full = call.half.needs ∧ dev.isFull = full ∧ dev.log.length % 4 = turn full + 1
    | .closing =>
      full = call.half.needs ∧ dev.isFull = (!full) ∧ dev.log.length % 4 = turn full + 1

/-- The steps that are left to a call inside, at most. -/
def Pc.left : Pc → Nat
  | .test => 4
  | .opening => 3
  | .mdelay => 2
  | .assign => 1
  | .closing => 0

theorem body_left {dev dev' : Dev} {l l' : Local} (h : demo.body dev l = (dev', .inl l')) :
    l'.pc.left < l.pc.left := by
  obtain ⟨call, pc⟩ := l
  cases pc with
  | test =>
    simp only [demo] at h
    split at h
    · cases h
      exact Nat.lt_succ_self _
    · cases h
  | opening => cases h; exact Nat.lt_succ_self _
  | mdelay => cases h; exact Nat.lt_succ_self _
  | assign => cases h; exact Nat.lt_succ_self _
  | closing => cases h

theorem demo_simulates : demo.Simulates place Rep Mid where
  init := ⟨rfl, nofun, rfl⟩
  early full call r h := by
    simp only [demo] at h
    split at h
    case isTrue h0 =>
      cases h
      exact if_pos h0
    case isFalse => cases h
  start full call dev l h hrep := by
    simp only [demo] at h
    split at h
    case isTrue => cases h
    case isFalse h0 =>
      cases h
      exact ⟨rfl, h0, hrep.2.1, hrep.1, hrep.2.2⟩
  next full call dev l dev' l' hmid h := by
    obtain ⟨call, pc⟩ := l
    obtain ⟨rfl, hasks, hrounds, hat⟩ := hmid
    cases pc with
    | test =>
      simp only [demo] at h
      split at h
      case isTrue hneeds =>
        cases h
        exact ⟨rfl, hasks, hrounds, hat.1.symm.trans hneeds, hat⟩
      case isFalse => cases h
    | opening =>
      cases h
      obtain ⟨hneeds, hfull, hlength⟩ := hat
      have hline : call.half.opening = round (turn full) := by rw [hneeds, opening_eq]
      refine ⟨rfl, hasks, hrounds.append hlength hline, hneeds, hfull, ?_⟩
      have hlt := turn_succ_lt full
      simp only [List.length_append, List.length_singleton]
      omega
    | mdelay =>
      cases h
      exact ⟨rfl, hasks, hrounds, hat⟩
    | assign =>
      cases h
      refine ⟨rfl, hasks, hrounds, hat.1, ?_, hat.2.2⟩
      rw [hat.1]
      exact leaves_eq call
    | closing => cases h
  done full call dev l dev' r hmid h := by
    obtain ⟨call, pc⟩ := l
    obtain ⟨rfl, hasks, hrounds, hat⟩ := hmid
    cases pc with
    | test =>
      simp only [demo] at h
      split at h
      case isTrue => cases h
      case isFalse hneeds =>
        cases h
        rw [hat.1] at hneeds
        rw [place_refused hasks hneeds]
        exact ⟨rfl, hat.1, hrounds, hat.2⟩
    | opening => cases h
    | mdelay => cases h
    | assign => cases h
    | closing =>
      cases h
      obtain ⟨hneeds, hfull, hlength⟩ := hat
      have hline : call.half.closing = round (turn full + 1) := by rw [hneeds, closing_eq]
      rw [place_served hasks hneeds]
      refine ⟨rfl, hfull, hrounds.append hlength hline, ?_⟩
      rw [turn_not]
      simp only [List.length_append, List.length_singleton]
      omega

variable {σ P : Type} [DecidableEq P]

/-- What the driver guarantees: its calls linearize to a place that is full or empty, the lines
of two calls never mix and go round write after read, one process at a time is behind the lock,
and every call can come back. -/
structure Serves (G : Guard σ) (s : Shared σ Dev Call Local Int P) : Prop where
  linearizable : Linearizable place s.history
  wellFormed : WellFormed id s.history
  rounds : ∀ i line, s.data.log[i]? = some line → line = round (i % 4)
  flag : s.lock = G.free → (s.data.isFull = true ↔ s.data.log.length % 4 = 2)
  exclusive : ∀ p q c d, s.client p = some c → s.client q = some d → c.critical = true →
    d.critical = true → p = q
  unlocked : (∀ p, s.client p = none) → s.lock = G.free
  returns : ∀ p, ∃ more : List P,
    ((demo.machine G P).runFrom s (more.map .run)).client p = none

omit [DecidableEq P] in
theorem rounds_of_inv {G : Guard σ} {s : Shared σ Dev Call Local Int P}
    (h : Section.Inv G demo place Rep Mid s) : Rounds s.data.log := by
  cases h.owned with
  | inl hfree => exact hfree.2.1.2.1
  | inr hheld =>
    obtain ⟨-, p, c, -, hcrit, hprog, -⟩ := hheld
    unfold Section.Progress at hprog
    cases hstage : c.stage with
    | enter => simp [Client.critical, hstage] at hcrit
    | lock l => simp [Client.critical, hstage] at hcrit
    | inside l =>
      rw [hstage] at hprog
      exact hprog.rounds
    | unlock r =>
      rw [hstage] at hprog
      exact hprog.2.2.1

theorem serves_of_inv {G : Guard σ} {s : Shared σ Dev Call Local Int P}
    (h : Section.Inv G demo place Rep Mid s) : Serves G s where
  linearizable := h.linearizable
  wellFormed := h.wellFormed
  rounds := rounds_of_inv h
  flag hfree := by
    obtain ⟨hfull, -, hlength⟩ := h.rep_of_free hfree
    rw [hfull, hlength]
    cases Section.after place s.history <;> decide
  exclusive p q c d hp hq hc hd := h.exclusive hp hq hc hd
  unlocked hnone := h.free_iff.mpr fun p c hp => by
    rw [hnone p] at hp
    cases hp
  returns := Section.can_finish demo_simulates (fun l => l.pc.left)
    (fun _ _ _ _ _ _ _ hbody => body_left hbody) h

/-- Any interleaving of any reads and writes keeps the guarantees, under the mutex and under the
semaphore. -/
theorem full_flag_linearizable (acts : List (Section.Act Call P)) :
    Serves (guardOf Locked.mutex) ((demo.machine (guardOf Locked.mutex) P).run acts) ∧
      Serves (guardOf Locked.semaphore) ((demo.machine (guardOf Locked.semaphore) P).run acts) :=
  ⟨serves_of_inv (Section.run_inv demo_simulates _ acts),
    serves_of_inv (Section.run_inv demo_simulates _ acts)⟩

end KernelDrivers.LockDemo.FullFlag
