import KernelDrivers.Framework.Unwinding
import KernelDrivers.Kernel.Basic

namespace KernelDrivers.GpioLed

open Framework Kernel Unwinding

/-- `gpio i` is `leds[i]`. -/
inductive Res where
  | gpio (i : Nat)
  | misc
  deriving DecidableEq

/-- How every acquisition of a load would end. -/
structure Fates where
  gpioRequest : Nat → Option Err
  gpioDirectionOutput : Nat → Option Err
  miscRegister : Option Err

/-- The body of the `for` loop of `demo_init`. -/
def body (f : Fates) (i : Nat) (s : Frame Res) : Round Res :=
  let s := { s with ret := status (f.gpioRequest i) }
  if s.ret < 0 then .error s
  else
    let s := s.acquire (.gpio i)
    let s := { s with ret := status (f.gpioDirectionOutput i) }
    if s.ret < 0 then .error s
    else .next s

/-- One round of `while (i--)`. -/
def undo (i : Nat) : List Res := [.gpio i]

/-- `demo_init` for `leds` of `n` entries. -/
def demoInit (f : Fates) (n : Nat) : Frame Res :=
  match loop (body f) undo n 0 ⟨0, Ledger.empty⟩ with
  | .error s => s
  | .next s =>
    match f.miscRegister with
    | some e => { s with ret := e.code }
    | none => { s.acquire .misc with ret := 0 }

/-- The loop of `demo_exit`; an index outside of `leds` has no result. -/
def freeAll (n : Nat) : Nat → Ledger Res → Option (Ledger Res)
  | 0, L => some L
  | i + 1, L => if i < n then freeAll n i (L.release (.gpio i)) else none

/-- `demo_exit`, which frees four entries whatever the size of `leds`. -/
def demoExit (n : Nat) (L : Ledger Res) : Option (Ledger Res) :=
  (freeAll n 4 L).map fun L => L.release .misc

/-- Round `i` of the loop succeeds. -/
def Complete (f : Fates) (i : Nat) : Prop :=
  f.gpioRequest i = none ∧ f.gpioDirectionOutput i = none

/-- What round `i` has acquired when it fails. -/
def leak (f : Fates) (i : Nat) : List Res := if (f.gpioRequest i).isSome then [] else [.gpio i]

theorem body_spec (f : Fates) (n : Nat) : RoundSpec (body f) undo (Complete f) (leak f) n where
  nodup i _ := List.nodup_singleton _
  apart i _ j hj r hr hr' := by
    simp only [undo, List.mem_singleton] at hr hr'
    rw [hr, Res.gpio.injEq] at hr'
    omega
  leaks i _ := by
    unfold leak undo
    split <;> simp
  round i _ s rs hs _ := by
    have hgpio := hs.acquire (.gpio i)
    cases hreq : f.gpioRequest i with
    | some e =>
      right
      have hb : body f i s = .error { s with ret := e.code } := by
        simp [body, hreq, status, e.neg]
      refine ⟨by simp [Complete, hreq], _, hb, e.neg, ?_, rfl⟩
      simpa [leak, hreq] using hs
    | none =>
      cases hdir : f.gpioDirectionOutput i with
      | some e =>
        right
        have hb : body f i s = .error { s.acquire (.gpio i) with ret := e.code } := by
          simp [body, hreq, hdir, status, e.neg, Frame.acquire]
        have hleak : leak f i = [.gpio i] := by simp [leak, hreq]
        refine ⟨by simp [Complete, hdir], _, hb, e.neg, ?_, rfl⟩
        rw [hleak]
        exact hgpio
      | none =>
        left
        have hb : body f i s = .next { s.acquire (.gpio i) with ret := 0 } := by
          simp [body, hreq, hdir, status, Frame.acquire]
        exact ⟨⟨hreq, hdir⟩, _, hb, hgpio, rfl, rfl⟩

/-- What a load and an unload must do: a load that returns 0 holds all gpios and the misc device,
one that fails holds no gpio, and an unload after the first releases each gpio once. -/
structure Balanced (f : Fates) (n : Nat) : Prop where
  success : (demoInit f n).ret = 0 → (demoInit f n).ledger.Holds (held undo n ++ [.misc])
  failure : (demoInit f n).ret < 0 → ∀ i, (demoInit f n).ledger.held (.gpio i) = false
  exit : (demoInit f n).ret = 0 → ∃ L, demoExit n (demoInit f n).ledger = some L ∧
    ∀ i < n, L.released.count (.gpio i) = 1

theorem mem_undo {i : Nat} {r : Res} : r ∈ undo i ↔ r = .gpio i := List.mem_singleton

theorem mem_gpios {n i : Nat} : Res.gpio i ∈ held undo n ↔ i < n := by
  rw [mem_held]
  constructor
  · rintro ⟨j, hj, hr⟩
    obtain rfl := Res.gpio.inj (mem_undo.mp hr)
    exact hj
  · exact fun hi => ⟨i, hi, mem_undo.mpr rfl⟩

theorem freeAll_eq {n k : Nat} (hk : k ≤ n) (L : Ledger Res) :
    freeAll n k L = some (L.releaseAll (teardown undo k)) := by
  induction k generalizing L with
  | zero => rfl
  | succ k ih =>
    rw [freeAll, if_pos (show k < n by omega), ih (by omega)]
    rfl

/-- An unload releases the first four gpios, whatever the size of `leds`, and has no result when
there are fewer. -/
theorem demoExit_cases (n : Nat) (L : Ledger Res) :
    (4 ≤ n ∧ demoExit n L = some ((L.releaseAll (teardown undo 4)).release .misc)) ∨
      (n < 4 ∧ demoExit n L = none) := by
  rcases Nat.lt_or_ge n 4 with h | h
  · right
    refine ⟨h, ?_⟩
    -- the first index is already outside
    have hout : freeAll n 4 L = none := by rw [freeAll, if_neg (show ¬ 3 < n by omega)]
    rw [demoExit, hout, Option.map_none]
  · left
    refine ⟨h, ?_⟩
    rw [demoExit, freeAll_eq h, Option.map_some]

theorem balanced_of_failed {f : Fates} {n : Nat} (hneg : (demoInit f n).ret < 0) :
    Balanced f n ↔ ∀ i, (demoInit f n).ledger.held (.gpio i) = false := by
  have hne : (demoInit f n).ret ≠ 0 := by omega
  constructor
  · exact fun h => h.failure hneg
  · exact fun h => ⟨fun h0 => absurd h0 hne, fun _ => h, fun h0 => absurd h0 hne⟩

theorem balanced_of_loaded {f : Fates} {n : Nat} (hret : (demoInit f n).ret = 0)
    (hholds : (demoInit f n).ledger.Holds (held undo n ++ [.misc]))
    (hreleased : (demoInit f n).ledger.released = []) : Balanced f n ↔ n = 4 := by
  let L := ((demoInit f n).ledger.releaseAll (teardown undo 4)).release .misc
  have hcount : L.released = [.gpio 3, .gpio 2, .gpio 1, .gpio 0, .misc] := by
    show (demoInit f n).ledger.released ++ _ ++ _ ++ _ ++ _ ++ [Res.misc] = _
    rw [hreleased]
    rfl
  rcases demoExit_cases n (demoInit f n).ledger with ⟨hn, hexit⟩ | ⟨hn, hexit⟩
  · constructor
    · intro hbalanced
      obtain ⟨L', hL', honce⟩ := hbalanced.exit hret
      obtain rfl : L = L' := Option.some.inj (hexit.symm.trans hL')
      by_contra hne
      -- the fifth gpio is never released
      have hfifth := honce 4 (by omega)
      rw [hcount] at hfifth
      revert hfifth
      decide
    · rintro rfl
      refine ⟨fun _ => hholds, fun h => by omega, fun _ => ⟨L, hexit, ?_⟩⟩
      rw [hcount]
      decide
  · apply iff_of_false
    · intro hbalanced
      obtain ⟨L', hL', -⟩ := hbalanced.exit hret
      rw [hexit] at hL'
      cases hL'
    · omega

/-- The ledger of a run: of the ways to fail only a `gpio_request` leaves no gpio behind, and an
unload fits a `leds` of four entries. -/
theorem gpio_ledger (f : Fates) (n : Nat) :
    Balanced f n ↔
      (∃ k < n, (∀ i < k, Complete f i) ∧ f.gpioRequest k ≠ none) ∨
      ((∀ i < n, Complete f i) ∧
        ((f.miscRegister = none ∧ n = 4) ∨ (f.miscRegister ≠ none ∧ n = 0))) := by
  have hended := (body_spec f n).run_ended 0
  generalize hloop : loop (body f) undo n 0 ⟨0, Ledger.empty⟩ = outcome at hended
  cases hended with
  | failed s k lt before fails ret holds stray =>
    have hinit : demoInit f n = s := by simp [demoInit, hloop]
    have hfirst : (∃ j < n, (∀ i < j, Complete f i) ∧ f.gpioRequest j ≠ none) ↔
        f.gpioRequest k ≠ none := by
      constructor
      · rintro ⟨j, hj, hbefore, hfail⟩
        rcases Nat.lt_trichotomy j k with h | rfl | h
        · exact absurd (before j h).1 hfail
        · exact hfail
        · exact absurd (hbefore k h) fails
      · exact fun hfail => ⟨k, lt, before, hfail⟩
    have hnotall : ¬ ∀ i < n, Complete f i := fun hall => fails (hall k lt)
    rw [balanced_of_failed (hinit ▸ ret), hinit, hfirst, or_iff_left fun h => hnotall h.1]
    cases hreq : f.gpioRequest k with
    | some e =>
      have hnone : s.ledger.Holds [] := by simpa [leak, hreq] using holds
      apply iff_of_true _ (Option.some_ne_none e)
      exact fun i => Bool.eq_false_iff.mpr fun h => absurd ((hnone _).mp h) List.not_mem_nil
    | none =>
      have hleak : s.ledger.held (.gpio k) = true := (holds _).mpr (by simp [leak, hreq])
      apply iff_of_false _ (not_not.mpr rfl)
      exact fun h => absurd hleak (Bool.eq_false_iff.mp (h k))
  | done s all holds stray released =>
    have hnofail : ¬ ∃ k < n, (∀ i < k, Complete f i) ∧ f.gpioRequest k ≠ none := by
      rintro ⟨k, hk, -, hfail⟩
      exact hfail (all k hk).1
    rw [or_iff_right hnofail, and_iff_right all]
    cases hmisc : f.miscRegister with
    | some e =>
      have hinit : demoInit f n = { s with ret := e.code } := by simp [demoInit, hloop, hmisc]
      have hheld (i : Nat) : s.ledger.held (.gpio i) = true ↔ i < n := (holds _).trans mem_gpios
      have hempty : (∀ i, s.ledger.held (.gpio i) = false) ↔ n = 0 := by
        constructor
        · intro hnone
          by_contra hn
          have h0 := (hheld 0).mpr (Nat.pos_of_ne_zero hn)
          exact absurd h0 (Bool.eq_false_iff.mp (hnone 0))
        · rintro rfl i
          exact Bool.eq_false_iff.mpr fun h => absurd ((hheld i).mp h) (Nat.not_lt_zero i)
      have hneg : (demoInit f n).ret < 0 := by
        rw [hinit]
        exact e.neg
      rw [balanced_of_failed hneg, hinit, hempty]
      simp
    | none =>
      have hinit : demoInit f n = { s.acquire .misc with ret := 0 } := by
        simp [demoInit, hloop, hmisc]
      have hloaded : Balanced f n ↔ n = 4 := by
        apply balanced_of_loaded
        · rw [hinit]
        · rw [hinit]
          exact holds.acquire .misc
        · rw [hinit]
          exact released
      rw [hloaded]
      simp

/-- The pin of the first LED is granted and cannot be made an output. -/
def noOutput : Fates := ⟨fun _ => none, fun _ => some ⟨-einval, by decide⟩, none⟩

/-- The load then fails with that gpio held. -/
theorem failed_output_leaks : (demoInit noOutput 4).ret < 0 ∧
    (demoInit noOutput 4).ledger.held (.gpio 0) = true ∧ ¬ Balanced noOutput 4 := by
  have hneg : (demoInit noOutput 4).ret < 0 := by decide
  have hheld : (demoInit noOutput 4).ledger.held (.gpio 0) = true := by decide
  refine ⟨hneg, hheld, ?_⟩
  intro hbalanced
  exact absurd hheld (Bool.eq_false_iff.mp (hbalanced.failure hneg 0))

end KernelDrivers.GpioLed
