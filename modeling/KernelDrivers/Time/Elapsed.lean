import Mathlib.Data.Int.Order.Basic
import Mathlib.Tactic.Ring

namespace KernelDrivers.Time

/-- A `struct timespec` whose fields are longs of 32 bits. -/
structure Timespec where
  tv_sec : Int32
  tv_nsec : Int32
  normal : 0 ≤ tv_nsec.toInt ∧ tv_nsec.toInt < 1000000000

/-- The nanoseconds that a timespec stands for. -/
def Timespec.ns (t : Timespec) : Int := t.tv_sec.toInt * 1000000000 + t.tv_nsec.toInt

/-- Two times in their order, less than 2^31 microseconds apart. -/
structure Span where
  t0 : Timespec
  t1 : Timespec
  ordered : t0.ns ≤ t1.ns
  close : t1.ns - t0.ns < 2147483648 * 1000

/-- time/currenttime/demo0.c, where `NSPERSEC` makes every operand an unsigned long long. -/
def nsec (ts_start ts_end : Timespec) : UInt64 :=
  UInt64.ofInt (ts_end.tv_sec - ts_start.tv_sec).toInt * 1000000000 +
    UInt64.ofInt ts_end.tv_nsec.toInt - UInt64.ofInt ts_start.tv_nsec.toInt

/-- kernel_code_v1/kernel_time/demo2.c -/
def us (t0 t1 : Timespec) : Int32 :=
  (t1.tv_sec - t0.tv_sec) * 1000000 + (t1.tv_nsec - t0.tv_nsec) / 1000

/-- The nanosecond field does not decrease, or by whole microseconds. -/
def BorrowsWholeMicros (t0 t1 : Timespec) : Prop :=
  t0.tv_nsec.toInt ≤ t1.tv_nsec.toInt ∨ (t0.tv_nsec.toInt - t1.tv_nsec.toInt) % 1000 = 0

instance (t0 t1 : Timespec) : Decidable (BorrowsWholeMicros t0 t1) :=
  inferInstanceAs (Decidable (_ ∨ _))

theorem toInt_sub_of_fits {a b : Int32} (hlow : -2147483648 ≤ a.toInt - b.toInt)
    (hhigh : a.toInt - b.toInt < 2147483648) : (a - b).toInt = a.toInt - b.toInt := by
  rw [Int32.toInt_sub]
  apply Int.bmod_eq_of_le_mul_two
  · omega
  · omega

namespace Span

variable (s : Span)

/-- The time that has really passed, in nanoseconds. -/
def elapsed : Int := s.t1.ns - s.t0.ns

/-- The difference of the seconds, which is at most one second more than the whole, fits. -/
theorem sec_diff :
    (s.t1.tv_sec - s.t0.tv_sec).toInt = s.t1.tv_sec.toInt - s.t0.tv_sec.toInt := by
  have hordered := s.ordered
  have hclose := s.close
  have h0 := s.t0.normal
  have h1 := s.t1.normal
  rw [Timespec.ns, Timespec.ns] at hordered hclose
  apply toInt_sub_of_fits
  · omega
  · omega

theorem nsec_diff :
    (s.t1.tv_nsec - s.t0.tv_nsec).toInt = s.t1.tv_nsec.toInt - s.t0.tv_nsec.toInt := by
  have h0 := s.t0.normal
  have h1 := s.t1.normal
  apply toInt_sub_of_fits
  · omega
  · omega

theorem elapsed_bounds : 0 ≤ s.elapsed ∧ s.elapsed < 2147483648 * 1000 :=
  ⟨Int.sub_nonneg_of_le s.ordered, s.close⟩

/-- The unsigned arithmetic is that of the integers modulo 2^64, into which the difference fits. -/
theorem nsec_toNat : ((nsec s.t0 s.t1).toNat : Int) = s.elapsed := by
  have hring : nsec s.t0 s.t1 = UInt64.ofInt s.elapsed := by
    have hsplit : s.elapsed = (s.t1.tv_sec.toInt - s.t0.tv_sec.toInt) * 1000000000 +
        s.t1.tv_nsec.toInt + -s.t0.tv_nsec.toInt := by
      rw [elapsed, Timespec.ns, Timespec.ns]
      ring
    rw [nsec, s.sec_diff, hsplit, UInt64.ofInt_add, UInt64.ofInt_add, UInt64.ofInt_mul,
      UInt64.ofInt_neg, UInt64.sub_eq_add_neg]
    rfl
  obtain ⟨hlow, hhigh⟩ := s.elapsed_bounds
  rw [hring, UInt64.ofInt, UInt64.toNat_ofNat']
  omega

/-- A negative difference is divided upwards, unless the division is exact. -/
theorem micros_diff :
    ((s.t1.tv_nsec - s.t0.tv_nsec) / 1000).toInt =
      (s.t1.tv_nsec.toInt - s.t0.tv_nsec.toInt) / 1000 +
        if BorrowsWholeMicros s.t0 s.t1 then 0 else 1 := by
  have hdvd : (0 ≤ s.t1.tv_nsec.toInt - s.t0.tv_nsec.toInt ∨
      (1000 : Int) ∣ s.t1.tv_nsec.toInt - s.t0.tv_nsec.toInt) ↔
      BorrowsWholeMicros s.t0 s.t1 := by
    rw [BorrowsWholeMicros]
    omega
  have hthousand : (1000 : Int32).toInt = 1000 := rfl
  rw [Int32.toInt_div_of_ne_right _ _ (by decide), s.nsec_diff, hthousand, Int.tdiv_eq_ediv]
  simp only [hdvd]
  rfl

/-- The division is made before the borrow, so the microseconds can be one too many. -/
theorem us_toInt : (us s.t0 s.t1).toInt =
    (s.elapsed / 1000 + if BorrowsWholeMicros s.t0 s.t1 then 0 else 1).bmod (2 ^ 32) := by
  have hmillion : (1000000 : Int32).toInt = 1000000 := rfl
  have hwhole : s.elapsed / 1000 =
      (s.t1.tv_sec.toInt - s.t0.tv_sec.toInt) * 1000000 +
        (s.t1.tv_nsec.toInt - s.t0.tv_nsec.toInt) / 1000 := by
    rw [elapsed, Timespec.ns, Timespec.ns]
    omega
  rw [us, Int32.toInt_add, Int32.toInt_mul, s.sec_diff, hmillion, s.micros_diff,
    Int.bmod_add_bmod, hwhole, Int.add_assoc]

/-- The two agree on the spans in which the division leaves nothing to round. -/
theorem us_eq_iff :
    (us s.t0 s.t1).toInt = s.elapsed / 1000 ↔ BorrowsWholeMicros s.t0 s.t1 := by
  obtain ⟨hlow, hhigh⟩ := s.elapsed_bounds
  rw [us_toInt]
  split
  next hwhole =>
    refine iff_of_true ?_ hwhole
    rw [Int.add_zero]
    apply Int.bmod_eq_of_le_mul_two
    · omega
    · omega
  next hround =>
    refine iff_of_false ?_ hround
    rw [Int.bmod_def]
    omega

end Span

/-- The nanoseconds are exact, and the microseconds agree with them if and only if the nanosecond
field lends nothing that has to be rounded. -/
theorem elapsed_agree (s : Span) :
    ((nsec s.t0 s.t1).toNat : Int) = s.t1.ns - s.t0.ns ∧
      ((us s.t0 s.t1).toInt = ((nsec s.t0 s.t1).toNat / 1000 : Nat) ↔
        s.t0.tv_nsec.toInt ≤ s.t1.tv_nsec.toInt ∨
          (s.t0.tv_nsec.toInt - s.t1.tv_nsec.toInt) % 1000 = 0) := by
  refine ⟨s.nsec_toNat, ?_⟩
  rw [Int.natCast_ediv, s.nsec_toNat]
  exact s.us_eq_iff

/-- One nanosecond over the change of the second is shown as one microsecond. -/
theorem elapsed_disagree :
    let t0 : Timespec := ⟨0, 999999999, by decide⟩
    let t1 : Timespec := ⟨1, 0, by decide⟩
    t0.ns ≤ t1.ns ∧ t1.ns - t0.ns < 2147483648 * 1000 ∧ (nsec t0 t1).toNat = 1 ∧
      (us t0 t1).toInt = 1 ∧ (us t0 t1).toInt ≠ ((nsec t0 t1).toNat / 1000 : Nat) := by
  decide

end KernelDrivers.Time
