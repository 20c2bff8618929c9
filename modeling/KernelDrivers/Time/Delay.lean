import KernelDrivers.Framework.WrappingClock

namespace KernelDrivers.Time

open Framework.WrappingClock

/-- `while (time_before(jiffies, end)) schedule();`, whose tests find the given numbers of ticks
gone since the call. The outcome is the number of the test that ends the loop. -/
def delayLoop (jiffies stop : BitVec 32) : List Nat → Option Nat
  | [] => none
  | t :: ticks =>
    if before (after jiffies t) stop then (delayLoop jiffies stop ticks).map (· + 1) else some 0

/-- The text is the same in time/delay/demo0.c and in kernel_code_v1/kernel_time/demo.c. The
argument is an int, and so is its product with `HZ`. -/
def mydelay (HZ sec : Int32) (jiffies : BitVec 32) (ticks : List Nat) : Option Nat :=
  delayLoop jiffies (jiffies + BitVec.ofInt 32 (sec * HZ).toInt) ticks

/-- The ticks at which the loop has to end: the delay is over, by less than half a round. -/
def InWindow (wait : Int) (t : Nat) : Prop := wait ≤ t ∧ t < wait + 2147483648

instance (wait : Int) (t : Nat) : Decidable (InWindow wait t) := inferInstanceAs (Decidable (_ ∧ _))

theorem delayLoop_eq_findIdx (jiffies stop : BitVec 32) (ticks : List Nat) :
    delayLoop jiffies stop ticks = ticks.findIdx? fun t => !before (after jiffies t) stop := by
  induction ticks with
  | nil => rfl
  | cons t ticks ih =>
    rw [delayLoop, List.findIdx?_cons, ih]
    cases before (after jiffies t) stop
    · rfl
    · rfl

theorem delayLoop_eq_some {jiffies stop : BitVec 32} {ticks : List Nat} {k : Nat} :
    delayLoop jiffies stop ticks = some k ↔
      (∃ t, ticks[k]? = some t ∧ before (after jiffies t) stop = false) ∧
        ∀ j t, j < k → ticks[j]? = some t → before (after jiffies t) stop = true := by
  rw [delayLoop_eq_findIdx, List.findIdx?_eq_some_iff_getElem]
  constructor
  · rintro ⟨hk, hexit, hbefore⟩
    refine ⟨⟨ticks[k], List.getElem?_eq_getElem hk, by simpa using hexit⟩, ?_⟩
    intro j t hj ht
    obtain ⟨hlt, rfl⟩ := List.getElem?_eq_some_iff.mp ht
    simpa using hbefore j hj
  · rintro ⟨⟨t, ht, hexit⟩, hbefore⟩
    obtain ⟨hk, rfl⟩ := List.getElem?_eq_some_iff.mp ht
    refine ⟨hk, by simpa using hexit, ?_⟩
    intro j hj
    have hlt : j < ticks.length := Nat.lt_trans hj hk
    simpa using hbefore j ticks[j] hj (List.getElem?_eq_getElem hlt)

section Wait

variable {HZ sec : Int32} (hsec : 0 ≤ sec.toInt) (hHZ : 0 < HZ.toInt)
  (hwait : sec.toInt * HZ.toInt < 2147483648)

include hsec hHZ hwait

/-- The product does not overflow, so the loop ends as many ticks later. -/
theorem deadline (jiffies : BitVec 32) :
    jiffies + BitVec.ofInt 32 (sec * HZ).toInt =
      after jiffies (sec.toInt * HZ.toInt).toNat := by
  have hpos : 0 ≤ sec.toInt * HZ.toInt := Int.mul_nonneg hsec (Int.le_of_lt hHZ)
  have hprod : (sec * HZ).toInt = sec.toInt * HZ.toInt := by
    rw [Int32.toInt_mul]
    apply Int.bmod_eq_of_le_mul_two
    · omega
    · omega
  rw [hprod, after, ← BitVec.ofInt_natCast, Int.toNat_of_nonneg hpos]

/-- Before the end of the window the test tells whether the delay is still going on. -/
theorem test_iff (jiffies : BitVec 32) {t : Nat}
    (ht : t < sec.toInt * HZ.toInt + 2147483648) :
    before (after jiffies t) (jiffies + BitVec.ofInt 32 (sec * HZ).toInt) = true ↔
      t < sec.toInt * HZ.toInt := by
  have hpos : 0 ≤ sec.toInt * HZ.toInt := Int.mul_nonneg hsec (Int.le_of_lt hHZ)
  rw [deadline hsec hHZ hwait, before_after_iff]
  · omega
  · omega
  · omega

theorem mydelay_not_early {jiffies : BitVec 32} {ticks : List Nat} {i t : Nat}
    (hexit : mydelay HZ sec jiffies ticks = some i) (ht : ticks[i]? = some t) :
    sec.toInt * HZ.toInt ≤ t := by
  by_contra hearly
  obtain ⟨⟨t', ht', hout⟩, -⟩ := delayLoop_eq_some.mp hexit
  obtain rfl : t = t' := Option.some.inj (ht.symm.trans ht')
  have hin := (test_iff hsec hHZ hwait jiffies (t := t) (by omega)).mpr (by omega)
  rw [hin] at hout
  exact absurd hout (by decide)

/-- As the ticks do not decrease, the tests before the first one in the window come too early. -/
theorem mydelay_in_window {jiffies : BitVec 32} {ticks : List Nat}
    (hmono : ticks.Pairwise (· ≤ ·)) {k t : Nat} (ht : ticks[k]? = some t)
    (hwindow : InWindow (sec.toInt * HZ.toInt) t)
    (hfirst : ∀ t' ∈ ticks.take k, ¬ InWindow (sec.toInt * HZ.toInt) t') :
    mydelay HZ sec jiffies ticks = some k := by
  obtain ⟨hover, hbound⟩ := hwindow
  refine delayLoop_eq_some.mpr ⟨⟨t, ht, ?_⟩, ?_⟩
  · apply Bool.eq_false_of_not_eq_true
    rw [test_iff hsec hHZ hwait jiffies hbound]
    omega
  · intro j t' hj ht'
    obtain ⟨hk, rfl⟩ := List.getElem?_eq_some_iff.mp ht
    obtain ⟨hlt, rfl⟩ := List.getElem?_eq_some_iff.mp ht'
    have hle : ticks[j] ≤ ticks[k] := List.pairwise_iff_getElem.mp hmono j k hlt hk hj
    have hmem : ticks[j] ∈ ticks.take k :=
      List.mem_take_iff_getElem.mpr ⟨j, Nat.lt_min.mpr ⟨hj, hlt⟩, rfl⟩
    have hout := hfirst _ hmem
    rw [InWindow] at hout
    rw [test_iff hsec hHZ hwait jiffies (by omega)]
    omega

theorem mydelay_isSome (jiffies : BitVec 32) {ticks : List Nat} {t : Nat} (hmem : t ∈ ticks)
    (hwindow : InWindow (sec.toInt * HZ.toInt) t) : (mydelay HZ sec jiffies ticks).isSome := by
  rw [mydelay, delayLoop_eq_findIdx, List.findIdx?_isSome, List.any_eq_true]
  refine ⟨t, hmem, ?_⟩
  rw [Bool.not_eq_true', ← Bool.not_eq_true, test_iff hsec hHZ hwait jiffies hwindow.2]
  exact Int.not_lt.mpr hwindow.1

end Wait

/-- The delay is never cut short, and ends at the first test in the window, wherever `jiffies`
stood. -/
theorem mydelay_across_wrap (HZ sec : Int32) (hsec : 0 ≤ sec.toInt) (hHZ : 0 < HZ.toInt)
    (hwait : sec.toInt * HZ.toInt < 2147483648) (jiffies : BitVec 32) (ticks : List Nat)
    (hmono : ticks.Pairwise (· ≤ ·)) :
    (∀ i t, mydelay HZ sec jiffies ticks = some i → ticks[i]? = some t →
      sec.toInt * HZ.toInt ≤ t) ∧
    (∀ k t, ticks[k]? = some t → InWindow (sec.toInt * HZ.toInt) t →
      (∀ t' ∈ ticks.take k, ¬ InWindow (sec.toInt * HZ.toInt) t') →
      mydelay HZ sec jiffies ticks = some k) ∧
    ((∃ t ∈ ticks, InWindow (sec.toInt * HZ.toInt) t) →
      (mydelay HZ sec jiffies ticks).isSome) := by
  refine ⟨?_, ?_, ?_⟩
  · intro i t
    exact mydelay_not_early hsec hHZ hwait
  · intro k t
    exact mydelay_in_window hsec hHZ hwait hmono
  · rintro ⟨t, hmem, hwindow⟩
    exact mydelay_isSome hsec hHZ hwait jiffies hmem hwindow

/-- Three seconds that begin two ticks before the wrap. -/
theorem mydelay_across_wrap_near :
    mydelay 200 3 4294967294 [0, 1, 2, 599, 600, 605] = some 4 :=
  (mydelay_across_wrap 200 3 (by decide) (by decide) (by decide) 4294967294
    [0, 1, 2, 599, 600, 605] (by decide)).2.1 4 600 rfl (by decide) (by decide)

end KernelDrivers.Time
