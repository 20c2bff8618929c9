import Mathlib.Data.List.Induction
import KernelDrivers.Keys.Reader

namespace KernelDrivers.Keys

open Framework Kernel

/-- The key states after a number of handled events, oldest first. -/
def handled (drv : Driver) (events : List Key) : KeyDev := events.foldl drv.event drv.fresh

/-- A counter that is even or has not gone negative. -/
def Sound (cnt : Int32) : Prop := cnt.toInt % 2 = 0 ∨ 0 ≤ cnt.toInt

/-- A number of events that is even or in the lower half of the counter's round. -/
def InLowerHalf (n : Nat) : Prop := n % 2 = 0 ∨ n % 4294967296 < 2147483648

/-- Both drivers report C's remainder of the counter, each from its own zero on. -/
def ReportsRemainder (drv : Driver) : Prop :=
  ∀ cnt, drv.encode cnt = drv.initial + UInt8.ofInt (cnt % 2).toInt

/-- The two values that a key may have. -/
def IsDigit (drv : Driver) (b : Byte) : Prop := b = drv.initial ∨ b = drv.initial + 1

theorem keys_reportsRemainder : ReportsRemainder keys := fun _ => (UInt8.zero_add _).symm

theorem keysV1_reportsRemainder : ReportsRemainder keysV1 := by
  intro cnt
  show UInt8.ofInt ((cnt % 2).toInt + 48) = 48 + UInt8.ofInt (cnt % 2).toInt
  rw [UInt8.ofInt_add, UInt8.add_comm]
  rfl

theorem toInt_count (n : Nat) :
    (Int32.ofNat n).toInt % 2 = (n % 2 : Nat) ∧
      (0 ≤ (Int32.ofNat n).toInt ↔ n % 4294967296 < 2147483648) := by
  have hsize : (Int32.size : Int) = 4294967296 := rfl
  rw [Int32.toInt_ofNat', Int.bmod_def, hsize]
  omega

theorem sound_ofNat (n : Nat) : Sound (Int32.ofNat n) ↔ InLowerHalf n := by
  obtain ⟨hmod, hneg⟩ := toInt_count n
  rw [Sound, InLowerHalf, hmod, hneg]
  omega

theorem event_self (drv : Driver) (dev : KeyDev) (key : Key) :
    (drv.event dev key).cnt key = dev.cnt key + 1 ∧
      (drv.event dev key).kbuf key = drv.encode (dev.cnt key + 1) := by
  simp [Driver.event]

theorem event_other (drv : Driver) (dev : KeyDev) {key i : Key} (h : i ≠ key) :
    (drv.event dev key).cnt i = dev.cnt i ∧ (drv.event dev key).kbuf i = dev.kbuf i := by
  simp [Driver.event, h]

section Encode

variable {drv : Driver} (hdrv : ReportsRemainder drv)

include hdrv

theorem encode_cases (cnt : Int32) : drv.encode cnt = drv.initial +
    if cnt.toInt % 2 = 0 then 0 else if cnt.toInt < 0 then 255 else 1 := by
  have h2 : (2 : Int32).toInt = 2 := rfl
  rw [hdrv, Int32.toInt_mod, h2, tmod_two]
  congr 1
  by_cases heven : cnt.toInt % 2 = 0
  · rw [if_pos heven, if_pos heven]
    rfl
  · rw [if_neg heven, if_neg heven]
    by_cases hneg : cnt.toInt < 0
    · rw [if_pos hneg, if_pos hneg]
      rfl
    · rw [if_neg hneg, if_neg hneg]
      rfl

/-- The value reported after `n` events is the parity of `n` in the lower half only. -/
theorem encode_parity_iff (n : Nat) :
    drv.encode (Int32.ofNat n) = drv.initial + UInt8.ofNat (n % 2) ↔ InLowerHalf n := by
  obtain ⟨hmod, hneg⟩ := toInt_count n
  rw [encode_cases hdrv, UInt8.add_right_inj, hmod, InLowerHalf]
  rw [← Int.not_lt] at hneg
  generalize (Int32.ofNat n).toInt = cnt at hneg
  rcases Nat.mod_two_eq_zero_or_one n with h0 | h1
  · simp [h0]
  · by_cases hlow : n % 4294967296 < 2147483648
    · simp [h1, hlow, hneg.mpr hlow]
    · have hn : cnt < 0 := not_not.mp (mt hneg.mp hlow)
      simp only [h1, hlow, hn]
      decide

theorem isDigit_iff (cnt : Int32) : IsDigit drv (drv.encode cnt) ↔ Sound cnt := by
  have hzero : drv.initial = drv.initial + 0 := (UInt8.add_zero _).symm
  rw [IsDigit, encode_cases hdrv, Sound]
  nth_rewrite 2 [hzero]
  rw [UInt8.add_right_inj, UInt8.add_right_inj]
  by_cases heven : cnt.toInt % 2 = 0
  · simp [heven]
  · by_cases hneg : cnt.toInt < 0
    · have hnot : ¬ 0 ≤ cnt.toInt := by omega
      simp only [heven, hneg, hnot]
      decide
    · have hnn : 0 ≤ cnt.toInt := by omega
      simp [heven, hneg, hnn]

/-- The counters count the events modulo 2^32, and the states are their remainders. -/
theorem handled_state (events : List Key) (key : Key) :
    (handled drv events).cnt key = Int32.ofNat (events.count key) ∧
      (handled drv events).kbuf key = drv.encode (Int32.ofNat (events.count key)) := by
  unfold handled
  induction events using List.reverseRecOn with
  | nil =>
    refine ⟨rfl, ?_⟩
    rw [encode_cases hdrv]
    exact (UInt8.add_zero _).symm
  | append_singleton events j ih =>
    rw [List.foldl_append, List.foldl_cons, List.foldl_nil]
    by_cases hk : key = j
    · subst hk
      obtain ⟨hcnt, hkbuf⟩ := event_self drv (events.foldl drv.event drv.fresh) key
      rw [hcnt, hkbuf, ih.1, List.count_append, List.count_singleton_self, Int32.ofNat_add]
      exact ⟨rfl, rfl⟩
    · obtain ⟨hcnt, hkbuf⟩ := event_other drv (events.foldl drv.event drv.fresh) hk
      have hsame : (events ++ [j]).count key = events.count key := by
        rw [List.count_append, List.count_singleton]
        simp [Ne.symm hk]
      rw [hcnt, hkbuf, hsame]
      exact ih

end Encode

namespace Reader

/-- Every value in the snapshot that a reader has just been handed is one that a key may have. -/
def HandsOutDigits (drv : Driver) (s : Reader) : Prop :=
  ∀ snap, s.pc = .clear snap → ∀ key, IsDigit drv (snap key)

/-- When a copy succeeds, every counter is even or has not gone negative. -/
def CopiesSound (s : Reader) : ReaderStep → Prop
  | .run fate => s.pc = .copy → fate.residue 4 = 0 → ∀ key, Sound (s.dev.cnt key)
  | _ => True

/-- The states are what the driver makes of the counters. -/
def Encoded (drv : Driver) (s : Reader) : Prop :=
  ∀ key, s.dev.kbuf key = drv.encode (s.dev.cnt key)

theorem step_encoded {drv : Driver} {s : Reader} (h : s.Encoded drv) (a : ReaderStep) :
    (s.step drv a).Encoded drv := by
  intro key
  rcases step_cases drv s a with ⟨k, -, hstep⟩ | ⟨fate, snap, -, -, hstep⟩ | hsilent
  · rw [hstep]
    by_cases hk : key = k
    · subst hk
      simp [Driver.event]
    · simpa [Driver.event, hk] using h key
  · rw [hstep]
    exact h key
  · rw [hsilent.dev]
    exact h key

/-- The bytes handed out are the ones of the moment of the copy. -/
theorem step_clear {drv : Driver} {s : Reader} {a : ReaderStep} {snap : Key → Byte}
    (h : (s.step drv a).pc = .clear snap) :
    s.pc = .clear snap ∨
      ∃ fate, a = .run fate ∧ s.pc = .copy ∧ fate.residue 4 = 0 ∧ snap = s.dev.kbuf := by
  cases a with
  | event key => exact Or.inl h
  | read cnt =>
    cases hpc : s.pc with
    | idle =>
      by_cases hcnt : cnt = 4 <;> simp [step, hpc, hcnt, leave] at h
    | wait => simp [step, hpc] at h
    | copy => simp [step, hpc] at h
    | clear seen => simpa [step, hpc] using h
  | signal =>
    cases hpc : s.pc with
    | idle => simp [step, hpc] at h
    | wait => simp [step, hpc] at h
    | copy => simp [step, hpc] at h
    | clear seen => simpa [step, hpc] using h
  | run fate =>
    cases hpc : s.pc with
    | idle => simp [step, keyRead, hpc] at h
    | wait =>
      by_cases hawake : drv.awake s.dev.flag = true <;>
        simp [step, keyRead, hpc, hawake] at h
    | copy =>
      by_cases hres : fate.residue 4 = 0
      · simp only [step, keyRead, hpc, hres, ne_eq, not_true_eq_false, if_false] at h
        exact Or.inr ⟨fate, rfl, rfl, hres, (ReaderPc.clear.inj h).symm⟩
      · simp [step, keyRead, hpc, hres, leave] at h
    | clear seen => simp [step, keyRead, hpc, leave] at h

/-- A reader is handed the two values of a key only, exactly when no copy finds an odd counter
that has gone negative. -/
theorem reader_digits_iff {drv : Driver} (hdrv : ReportsRemainder drv) (steps : List ReaderStep) :
    (∀ past, past <+: steps → ((machine drv).run past).HandsOutDigits drv) ↔
      (machine drv).Meets CopiesSound steps := by
  apply Machine.safe_iff_meets_of_invariant (J := Encoded drv)
  · intro key
    exact (handled_state hdrv [] key).2
  · intro snap h
    exact absurd h (by simp [machine, start])
  · exact fun s a h => step_encoded h a
  · intro s a henc hsafe
    constructor
    · intro hnext
      cases a with
      | run fate =>
        intro hpc hres key
        have hcopied : (s.step drv (.run fate)).pc = .clear s.dev.kbuf := by
          simp [step, keyRead, hpc, hres]
        have hdigit := hnext s.dev.kbuf hcopied key
        rw [henc key] at hdigit
        exact (isDigit_iff hdrv _).mp hdigit
      | _ => trivial
    · intro hsound snap hclear key
      rcases step_clear hclear with hpc | ⟨fate, rfl, hpc, hres, rfl⟩
      · exact hsafe snap hpc key
      · rw [henc key]
        exact (isDigit_iff hdrv _).mpr (hsound hpc hres key)

/-- The events of a run. -/
def eventsOf (steps : List ReaderStep) : List Key :=
  steps.filterMap fun
    | .event key => some key
    | _ => none

theorem step_cnt (drv : Driver) (s : Reader) {a : ReaderStep} (h : ∀ key, a ≠ .event key) :
    (s.step drv a).dev.cnt = s.dev.cnt := by
  rcases step_cases drv s a with ⟨key, ha, -⟩ | ⟨fate, snap, -, -, hstep⟩ | hsilent
  · exact absurd ha (h key)
  · rw [hstep]
  · rw [hsilent.dev]

/-- The counters of a run are those of its events alone. -/
theorem run_cnt (drv : Driver) (steps : List ReaderStep) (key : Key) :
    ((machine drv).run steps).dev.cnt key = Int32.ofNat ((eventsOf steps).count key) := by
  apply (machine drv).run_induction
    (I := fun steps s => s.dev.cnt key = Int32.ofNat ((eventsOf steps).count key))
  · rfl
  · intro acts a ih
    have hsplit : eventsOf (acts ++ [a]) = eventsOf acts ++ eventsOf [a] := List.filterMap_append
    rw [hsplit, List.count_append]
    cases a with
    | event k =>
      show (drv.event _ k).cnt key = Int32.ofNat ((eventsOf acts).count key + [k].count key)
      rw [List.count_singleton]
      by_cases hk : key = k
      · subst hk
        rw [(event_self drv _ key).1, ih]
        simp
      · rw [(event_other drv _ hk).1, ih]
        simp [Ne.symm hk]
    | read cnt =>
      exact (congrFun (step_cnt drv _ (a := .read cnt) (by simp)) key).trans ih
    | signal => exact (congrFun (step_cnt drv _ (a := .signal) (by simp)) key).trans ih
    | run fate => exact (congrFun (step_cnt drv _ (a := .run fate) (by simp)) key).trans ih

/-- Whenever a copy succeeds, every key has had a number of events that is even or in the lower
half of a round. -/
def CopiesInLowerHalf (drv : Driver) (steps : List ReaderStep) : Prop :=
  ∀ past fate, past ++ [.run fate] <+: steps → ((machine drv).run past).pc = .copy →
    fate.residue 4 = 0 → ∀ key, InLowerHalf ((eventsOf past).count key)

theorem copiesSound_iff (drv : Driver) (steps : List ReaderStep) :
    (machine drv).Meets CopiesSound steps ↔ CopiesInLowerHalf drv steps := by
  rw [Machine.meets_iff_prefix]
  constructor
  · intro h past fate hpast hpc hres key
    have hsound := h past (.run fate) hpast hpc hres key
    rwa [run_cnt, sound_ofNat] at hsound
  · intro h past a hpast
    cases a with
    | run fate =>
      intro hpc hres key
      rw [run_cnt, sound_ofNat]
      exact h past fate hpast hpc hres key
    | _ => trivial

end Reader

theorem doBhKey_parity_iff (events : List Key) (key : Key) :
    (events.foldl doBhKey keys.fresh).kbuf key = UInt8.ofNat (events.count key % 2) ↔
      InLowerHalf (events.count key) := by
  have hkbuf := (handled_state keys_reportsRemainder events key).2
  have hiff := encode_parity_iff keys_reportsRemainder (events.count key)
  have hzero : keys.initial + UInt8.ofNat (events.count key % 2) =
      UInt8.ofNat (events.count key % 2) := UInt8.zero_add _
  rw [← hkbuf, hzero] at hiff
  exact hiff

theorem doTimer_parity_iff (events : List Key) (key : Key) :
    (events.foldl doTimer keysV1.fresh).kbuf key = 48 + UInt8.ofNat (events.count key % 2) ↔
      InLowerHalf (events.count key) := by
  have hkbuf := (handled_state keysV1_reportsRemainder events key).2
  have hiff := encode_parity_iff keysV1_reportsRemainder (events.count key)
  rw [← hkbuf] at hiff
  exact hiff

/-- Each driver reports the parity of the events of a key exactly while their number is even or
in the lower half of a round of the counter; and its readers see no other values than the two of a
key, exactly when every copy is made at such a time. -/
theorem reported_parity_iff (events : List Key) (key : Key) (steps : List ReaderStep) :
    (((events.foldl doBhKey keys.fresh).kbuf key = UInt8.ofNat (events.count key % 2) ↔
        InLowerHalf (events.count key)) ∧
      ((events.foldl doTimer keysV1.fresh).kbuf key = 48 + UInt8.ofNat (events.count key % 2) ↔
        InLowerHalf (events.count key))) ∧
    ((∀ past, past <+: steps → ((Reader.machine keys).run past).HandsOutDigits keys) ↔
        Reader.CopiesInLowerHalf keys steps) ∧
      ((∀ past, past <+: steps → ((Reader.machine keysV1).run past).HandsOutDigits keysV1) ↔
        Reader.CopiesInLowerHalf keysV1 steps) := by
  constructor
  · exact ⟨doBhKey_parity_iff events key, doTimer_parity_iff events key⟩
  · rw [Reader.reader_digits_iff keys_reportsRemainder,
      Reader.reader_digits_iff keysV1_reportsRemainder, Reader.copiesSound_iff,
      Reader.copiesSound_iff]
    exact ⟨Iff.rfl, Iff.rfl⟩

/-- After 2147483649 events of one key both drivers report a value that no key may have. -/
theorem parity_lost_after_wrap :
    let events : List Key := List.replicate 2147483649 ⟨0, by decide⟩
    (events.foldl doBhKey keys.fresh).kbuf ⟨0, by decide⟩ ≠ UInt8.ofNat (2147483649 % 2) ∧
      (events.foldl doTimer keysV1.fresh).kbuf ⟨0, by decide⟩ ≠
        48 + UInt8.ofNat (2147483649 % 2) := by
  intro events
  have hcount : events.count ⟨0, by decide⟩ = 2147483649 := List.count_replicate_self
  have hupper : ¬ InLowerHalf 2147483649 := by
    unfold InLowerHalf
    decide
  have hkeys := doBhKey_parity_iff events ⟨0, by decide⟩
  have hv1 := doTimer_parity_iff events ⟨0, by decide⟩
  rw [hcount] at hkeys hv1
  exact ⟨fun h => hupper (hkeys.mp h), fun h => hupper (hv1.mp h)⟩

end KernelDrivers.Keys
