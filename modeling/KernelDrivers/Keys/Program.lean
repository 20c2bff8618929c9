import Mathlib.Data.List.FinRange
import KernelDrivers.Keys.Parity

namespace KernelDrivers.Keys

open Framework Kernel

/-- The application calls `read`, prints what has changed, and leaves when a call fails. -/
inductive AppPc where
  | read
  | print
  | exited

/-- The application in front of the driver; a line tells of a key whether it is down. -/
structure App where
  reader : Reader
  pc : AppPc
  buf : Key → Byte
  oldbuf : Key → Byte
  lines : List (Key × Bool)

inductive AppAct where
  | event (key : Key)
  | signal
  | run (fate : CopyFate)

namespace App

def start : App := ⟨.start keys, .read, fun _ => 0, fun _ => 0, []⟩

/-- The body of the loop over `oldbuf` and what has been printed. -/
def compare (buf : Key → Byte) (seen : (Key → Byte) × List (Key × Bool)) (i : Key) :
    (Key → Byte) × List (Key × Bool) :=
  if seen.1 i ≠ buf i then
    (Function.update seen.1 i (buf i), seen.2 ++ [(i, buf i != 0)])
  else seen

def showKeys (s : App) : App :=
  let seen := (List.finRange 4).foldl (compare s.buf) (s.oldbuf, s.lines)
  { s with oldbuf := seen.1, lines := seen.2, pc := .read }

/-- What the call does next; `reader` is where it is afterwards. -/
def reading (s : App) (reader : Reader) : App :=
  match reader.pc with
  | .idle =>
    match reader.returned.getLast? with
    | some (4, _) => { s with reader, pc := .print, buf := reader.last }
    | _ => { s with reader, pc := .exited }
  | _ => { s with reader }

/-- One step of `main`. -/
def appMain (s : App) (fate : CopyFate) : App :=
  match s.pc with
  | .read =>
    match s.reader.pc with
    | .idle => { s with reader := s.reader.step keys (.read 4) }
    | _ => s.reading (s.reader.step keys (.run fate))
  | .print => s.showKeys
  | .exited => s

def step (s : App) : AppAct → App
  | .event key => { s with reader := s.reader.step keys (.event key) }
  | .signal => { s with reader := s.reader.step keys .signal }
  | .run fate => s.appMain fate

def machine : Machine App AppAct := ⟨start, step⟩

/-- The lines about one key. -/
def linesOf (key : Key) (lines : List (Key × Bool)) : List Bool :=
  (lines.filter fun line => line.1 = key).map Prod.snd

/-- The events of a schedule. -/
def eventsOf (acts : List AppAct) : List Key :=
  acts.filterMap fun
    | .event key => some key
    | _ => none

/-- The bytes are those of the keys after the schedule `past`. -/
def Moment (past : List AppAct) (bytes : Key → Byte) : Prop :=
  ∀ key, bytes key = keys.encode (Int32.ofNat ((eventsOf past).count key))

/-- What the screen says of a key, which is up at first. -/
def displayed (s : App) (key : Key) : Bool := (linesOf key s.lines).getLast?.getD false

def alternating (n : Nat) : List Bool := (List.range n).map fun i => i % 2 == 0

/-- The state of every key that has been printed is the one after the schedule `past`. -/
structure Shows (past : List AppAct) (s : App) : Prop where
  moment : Moment past s.oldbuf
  display : ∀ key, s.displayed key = (s.oldbuf key != 0)
  lines_le : ∀ key, (linesOf key s.lines).length ≤ (eventsOf past).count key
  alternate : ∀ key, (eventsOf past).count key ≤ 2147483648 →
    linesOf key s.lines = alternating (linesOf key s.lines).length ∧
      (s.oldbuf key = 0 ↔ (linesOf key s.lines).length % 2 = 0)

/-- The program has read `snap`, or is about to, and has not looked at it yet. -/
def Holds (s : App) (snap : Key → Byte) : Prop :=
  (s.pc = .read ∧ s.reader.pc = .clear snap) ∨ (s.pc = .print ∧ s.buf = snap)

/-- The copy that is handed out is still what the driver has. -/
def FreshCopies (s : App) : AppAct → Prop
  | .run _ => ∀ snap, s.reader.pc = .clear snap → s.reader.dev.kbuf = snap
  | _ => True

/-- The program waits for an event. -/
def Waits (s : App) : Prop := s.pc = .read ∧ s.reader.Blocked keys

/-- What has been read is what the loop has seen or is about to see. -/
structure Linked (s : App) : Prop where
  seen : s.pc = .read → s.oldbuf = s.reader.last
  unseen : s.pc = .print → s.buf = s.reader.last
  idle : s.pc = .print → s.reader.pc = .idle

theorem linesOf_append (key : Key) (lines more : List (Key × Bool)) :
    linesOf key (lines ++ more) = linesOf key lines ++ linesOf key more := by
  simp [linesOf]

theorem linesOf_single (key i : Key) (b : Bool) :
    linesOf key [(i, b)] = if i = key then [b] else [] := by
  by_cases h : i = key <;> simp [linesOf, h]

theorem alternating_succ (n : Nat) : alternating (n + 1) = alternating n ++ [n % 2 == 0] := by
  simp [alternating, List.range_succ]

/-- The loop leaves the other keys alone. -/
theorem compare_foldl (buf : Key → Byte) (is : List Key) (h : is.Nodup)
    (seen : (Key → Byte) × List (Key × Bool)) (key : Key) :
    let after := is.foldl (compare buf) seen
    after.1 key = (if key ∈ is then buf key else seen.1 key) ∧
      linesOf key after.2 = linesOf key seen.2 ++
        if key ∈ is ∧ seen.1 key ≠ buf key then [buf key != 0] else [] := by
  induction is generalizing seen with
  | nil => simp
  | cons i is ih =>
    obtain ⟨hi, his⟩ := List.nodup_cons.mp h
    obtain ⟨hbuf, hlines⟩ := ih his (compare buf seen i)
    simp only [List.foldl_cons]
    rw [hbuf, hlines]
    by_cases hk : key = i
    · subst hk
      by_cases hsame : seen.1 key = buf key
      · simp [compare, hi, hsame]
      · simp [compare, hi, hsame, linesOf_append, linesOf_single]
    · have hfirst : (compare buf seen i).1 key = seen.1 key := by
        rw [compare]
        split
        · exact Function.update_of_ne hk _ _
        · rfl
      have hsecond : linesOf key (compare buf seen i).2 = linesOf key seen.2 := by
        rw [compare]
        split
        · rw [linesOf_append, linesOf_single, if_neg (Ne.symm hk), List.append_nil]
        · rfl
      simp [hfirst, hsecond, hk]

theorem showKeys_spec (s : App) (key : Key) :
    s.showKeys.oldbuf key = s.buf key ∧ linesOf key s.showKeys.lines = linesOf key s.lines ++
      if s.oldbuf key ≠ s.buf key then [s.buf key != 0] else [] := by
  have h := compare_foldl s.buf (List.finRange 4) (List.nodup_finRange 4) (s.oldbuf, s.lines) key
  simp only [List.mem_finRange, if_true, true_and] at h
  exact h

/-- A key is reported as down after an odd number of events, also when its counter has gone
negative. -/
theorem encode_eq_zero_iff (n : Nat) : keys.encode (Int32.ofNat n) = 0 ↔ n % 2 = 0 := by
  obtain ⟨hmod, -⟩ := toInt_count n
  rw [encode_cases keys_reportsRemainder, hmod]
  show (0 : Byte) + _ = 0 ↔ _
  rw [UInt8.zero_add]
  by_cases heven : n % 2 = 0
  · simp [heven]
  · have hone : ((n % 2 : Nat) : Int) ≠ 0 := by omega
    rw [if_neg hone]
    split <;> simp [heven]

theorem encode_bounded {n : Nat} (h : n ≤ 2147483648) :
    keys.encode (Int32.ofNat n) = UInt8.ofNat (n % 2) := by
  have hlow : InLowerHalf n := by
    rw [InLowerHalf]
    omega
  rw [(encode_parity_iff keys_reportsRemainder n).mpr hlow]
  exact UInt8.zero_add _

theorem parity_flip {m n : Nat} (h : UInt8.ofNat (m % 2) ≠ UInt8.ofNat (n % 2)) :
    UInt8.ofNat (n % 2) = 0 ↔ ¬ UInt8.ofNat (m % 2) = 0 := by
  rcases Nat.mod_two_eq_zero_or_one m with hm | hm <;>
    rcases Nat.mod_two_eq_zero_or_one n with hn | hn <;> rw [hm, hn] at h ⊢
  · exact absurd rfl h
  · decide
  · decide
  · exact absurd rfl h

theorem eventsOf_count_le {past acts : List AppAct} (h : past <+: acts) (key : Key) :
    (eventsOf past).count key ≤ (eventsOf acts).count key :=
  ((h.sublist.filterMap _)).count_le key

variable {s : App} {past now acts : List AppAct}

/-- The loop brings the screen from one moment to a later one. -/
theorem showKeys_shows (h : s.Shows past) (hbuf : Moment now s.buf) (hle : past <+: now) :
    s.showKeys.Shows now := by
  have hkey (key : Key) := showKeys_spec s key
  constructor
  · intro key
    rw [(hkey key).1]
    exact hbuf key
  · intro key
    rw [displayed, (hkey key).2, (hkey key).1]
    by_cases hsame : s.oldbuf key = s.buf key
    · rw [if_neg (not_not.mpr hsame), List.append_nil, ← hsame]
      exact h.display key
    · simp [hsame]
  · intro key
    have hcount := eventsOf_count_le hle key
    have hold := h.lines_le key
    rw [(hkey key).2, List.length_append]
    by_cases hsame : s.oldbuf key = s.buf key
    · simp [hsame]
      omega
    · have hne : (eventsOf past).count key ≠ (eventsOf now).count key := by
        intro heq
        apply hsame
        rw [h.moment key, hbuf key, heq]
      simp [hsame]
      omega
  · intro key hbound
    have hcount := eventsOf_count_le hle key
    obtain ⟨hlines, hparity⟩ := h.alternate key (by omega)
    rw [(hkey key).2, (hkey key).1]
    by_cases hsame : s.oldbuf key = s.buf key
    · rw [if_neg (not_not.mpr hsame), List.append_nil, ← hsame]
      exact ⟨hlines, hparity⟩
    · rw [if_pos hsame, List.length_append, List.length_singleton]
      -- the two bytes differ and both are 0 or 1
      have hflip : s.buf key = 0 ↔ ¬ s.oldbuf key = 0 := by
        have hold := h.moment key
        have hnew := hbuf key
        rw [encode_bounded (by omega)] at hold hnew
        rw [hold, hnew] at hsame ⊢
        exact parity_flip hsame
      constructor
      · rw [alternating_succ, ← hlines]
        congr 2
        rw [Bool.eq_iff_iff, bne_iff_ne, beq_iff_eq, ← hparity, ne_eq, hflip, not_not]
      · rw [hflip, hparity]
        omega

section AppMain

variable (fate : CopyFate)

theorem run_print (h : s.pc = .print) : s.step (.run fate) = s.showKeys := by
  simp [step, appMain, h]

theorem run_exited (h : s.pc = .exited) : s.step (.run fate) = s := by
  simp [step, appMain, h]

theorem run_idle (h : s.pc = .read) (hpc : s.reader.pc = .idle) :
    s.step (.run fate) = { s with reader := { s.reader with pc := .wait } } := by
  simp [step, appMain, h, hpc, Reader.step]

theorem run_asleep (h : s.pc = .read) (hpc : s.reader.pc = .wait)
    (hflag : keys.awake s.reader.dev.flag = false) : s.step (.run fate) = s := by
  simp [step, appMain, h, hpc, Reader.step, Reader.keyRead, reading, hflag]
  rw [← h]

theorem run_awake (h : s.pc = .read) (hpc : s.reader.pc = .wait)
    (hflag : keys.awake s.reader.dev.flag = true) :
    s.step (.run fate) = { s with reader := { s.reader with pc := .copy } } := by
  simp [step, appMain, h, hpc, Reader.step, Reader.keyRead, reading, hflag]

theorem run_fault (h : s.pc = .read) (hpc : s.reader.pc = .copy) (hres : fate.residue 4 ≠ 0) :
    s.step (.run fate) = { s with reader := s.reader.leave (-einval), pc := .exited } := by
  have hne : (-einval : Int) ≠ 4 := by decide
  simp [step, appMain, h, hpc, Reader.step, Reader.keyRead, reading, hres, Reader.leave, hne]

theorem run_copy (h : s.pc = .read) (hpc : s.reader.pc = .copy) (hres : fate.residue 4 = 0) :
    s.step (.run fate) =
      { s with reader := { s.reader with pc := .clear s.reader.dev.kbuf } } := by
  simp [step, appMain, h, hpc, Reader.step, Reader.keyRead, reading, hres]

theorem run_clear {snap : Key → Byte} (h : s.pc = .read) (hpc : s.reader.pc = .clear snap) :
    s.step (.run fate) = { s with
      reader := { s.reader.leave 4 with
        dev := { s.reader.dev with flag := 0 }, last := snap, since := 0 }
      pc := .print
      buf := snap } := by
  simp [step, appMain, h, hpc, Reader.step, Reader.keyRead, reading, Reader.leave]

end AppMain

/-- What a step can do: an event, the loop, the end of a read, good or bad, or a move of the
reader, which may take a copy. -/
theorem step_cases (s : App) (a : AppAct) :
    (∃ key, a = .event key ∧ s.step a = { s with
      reader := { s.reader with
        dev := keys.event s.reader.dev key, since := s.reader.since + 1 } }) ∨
    (eventsOf [a] = [] ∧ (
      (s.pc = .print ∧ s.step a = s.showKeys) ∨
      (∃ fate snap, a = .run fate ∧ s.pc = .read ∧ s.reader.pc = .clear snap ∧ s.step a = { s with
        reader := { s.reader.leave 4 with
          dev := { s.reader.dev with flag := 0 }, last := snap, since := 0 }
        pc := .print
        buf := snap }) ∨
      (s.pc = .read ∧ s.step a = { s with reader := s.reader.leave (-einval), pc := .exited }) ∨
      (∃ pc, s.step a = { s with reader := { s.reader with pc } } ∧
        (pc = s.reader.pc ∨ s.reader.pc ≠ .idle ∨ s.pc = .read) ∧
        ∀ snap, pc = .clear snap →
          s.reader.pc = .clear snap ∨ (s.pc = .read ∧ snap = s.reader.dev.kbuf)))) := by
  have hstay (h : s.step a = s) : ∃ pc, s.step a = { s with reader := { s.reader with pc } } ∧
      (pc = s.reader.pc ∨ s.reader.pc ≠ .idle ∨ s.pc = .read) ∧
      ∀ snap, pc = .clear snap →
        s.reader.pc = .clear snap ∨ (s.pc = .read ∧ snap = s.reader.dev.kbuf) :=
    ⟨s.reader.pc, h, Or.inl rfl, fun _ => Or.inl⟩
  obtain ⟨pc, hpc⟩ : ∃ pc, s.reader.pc = pc := ⟨_, rfl⟩
  cases a with
  | event key => exact Or.inl ⟨key, rfl, rfl⟩
  | signal =>
    refine Or.inr ⟨rfl, Or.inr (Or.inr (Or.inr ?_))⟩
    cases pc with
    | wait => exact ⟨.copy, by simp [step, Reader.step, hpc], by simp [hpc], by simp⟩
    | idle | copy | clear snap => exact hstay (by simp [step, Reader.step, hpc])
  | run fate =>
    refine Or.inr ⟨rfl, ?_⟩
    obtain ⟨main, hmain⟩ : ∃ main, s.pc = main := ⟨_, rfl⟩
    cases main with
    | print => exact Or.inl ⟨hmain, run_print fate hmain⟩
    | exited => exact Or.inr (Or.inr (Or.inr (hstay (run_exited fate hmain))))
    | read =>
      right
      cases pc with
      | idle =>
        right; right
        exact ⟨.wait, run_idle fate hmain hpc, Or.inr (Or.inr hmain), by simp⟩
      | wait =>
        right; right
        cases hflag : keys.awake s.reader.dev.flag with
        | true => exact ⟨.copy, run_awake fate hmain hpc hflag, Or.inr (Or.inr hmain), by simp⟩
        | false => exact hstay (run_asleep fate hmain hpc hflag)
      | copy =>
        right
        by_cases hres : fate.residue 4 = 0
        · refine Or.inr ⟨_, run_copy fate hmain hpc hres, Or.inr (Or.inr hmain), ?_⟩
          intro snap h
          exact Or.inr ⟨hmain, (ReaderPc.clear.inj h).symm⟩
        · exact Or.inl ⟨hmain, run_fault fate hmain hpc hres⟩
      | clear snap => exact Or.inl ⟨fate, snap, rfl, hmain, hpc, run_clear fate hmain hpc⟩

theorem eventsOf_append (acts more : List AppAct) :
    eventsOf (acts ++ more) = eventsOf acts ++ eventsOf more := List.filterMap_append

/-- The driver counts the events of the schedule. -/
theorem run_counts (acts : List AppAct) (key : Key) :
    (machine.run acts).reader.dev.cnt key = Int32.ofNat ((eventsOf acts).count key) ∧
      (machine.run acts).reader.dev.kbuf key =
        keys.encode (Int32.ofNat ((eventsOf acts).count key)) := by
  induction acts using List.reverseRecOn with
  | nil => exact handled_state keys_reportsRemainder [] key
  | append_singleton acts a ih =>
    rw [Machine.run_concat, eventsOf_append, List.count_append]
    show ((machine.run acts).step a).reader.dev.cnt key = _ ∧
      ((machine.run acts).step a).reader.dev.kbuf key = _
    rcases step_cases (machine.run acts) a with ⟨k, rfl, hstep⟩ | ⟨hnone, hcases⟩
    · rw [hstep]
      show (keys.event _ k).cnt key = Int32.ofNat ((eventsOf acts).count key + [k].count key) ∧
        (keys.event _ k).kbuf key =
          keys.encode (Int32.ofNat ((eventsOf acts).count key + [k].count key))
      by_cases hk : key = k
      · subst hk
        obtain ⟨hcnt, hkbuf⟩ := event_self keys (machine.run acts).reader.dev key
        rw [hcnt, hkbuf, ih.1, List.count_singleton_self, Int32.ofNat_add]
        exact ⟨rfl, rfl⟩
      · obtain ⟨hcnt, hkbuf⟩ := event_other keys (machine.run acts).reader.dev hk
        have hzero : [k].count key = 0 := by simp [Ne.symm hk]
        rw [hcnt, hkbuf, hzero]
        exact ih
    · rw [hnone, List.count_nil, Nat.add_zero]
      rcases hcases with ⟨-, hstep⟩ | ⟨fate, snap, -, -, -, hstep⟩ | ⟨-, hstep⟩ |
        ⟨pc, hstep, -, -⟩ <;> rw [hstep] <;> exact ih

theorem run_moment (acts : List AppAct) : Moment acts (machine.run acts).reader.dev.kbuf :=
  fun key => (run_counts acts key).2

theorem step_linked (h : s.Linked) (a : AppAct) : (s.step a).Linked := by
  rcases step_cases s a with ⟨k, -, hstep⟩ | ⟨-, ⟨hpc, hstep⟩ |
    ⟨fate, snap, -, hpc, hclear, hstep⟩ | ⟨hpc, hstep⟩ | ⟨pc, hstep, hmove, -⟩⟩
  · rw [hstep]
    exact ⟨h.seen, h.unseen, h.idle⟩
  · rw [hstep]
    refine ⟨fun _ => ?_, by simp [showKeys], by simp [showKeys]⟩
    show s.showKeys.oldbuf = s.reader.last
    rw [← h.unseen hpc]
    exact funext fun key => (showKeys_spec s key).1
  · rw [hstep]
    exact ⟨by simp, fun _ => rfl, fun _ => rfl⟩
  · rw [hstep]
    exact ⟨by simp, by simp, by simp⟩
  · rw [hstep]
    refine ⟨h.seen, h.unseen, fun hprint => ?_⟩
    have hidle := h.idle hprint
    rcases hmove with hsame | hbusy | hread
    · exact hsame.trans hidle
    · exact absurd hidle hbusy
    · simp [hread] at hprint

theorem run_linked (acts : List AppAct) : (machine.run acts).Linked := by
  apply machine.run_invariant
  · exact ⟨fun _ => rfl, by simp [machine, start], by simp [machine, start]⟩
  · exact fun s a h => step_linked h a

theorem Shows.of_same {s' : App} (h : s.Shows past) (hbuf : s'.oldbuf = s.oldbuf)
    (hlines : s'.lines = s.lines) : s'.Shows past := by
  obtain ⟨hmoment, hdisplay, hle, halternate⟩ := h
  constructor
  · rwa [hbuf]
  · intro key
    rw [displayed, hbuf, hlines]
    exact hdisplay key
  · rwa [hlines]
  · rwa [hbuf, hlines]

/-- What is on the screen belongs to one moment, and what the program holds to a later one. -/
def Follows (acts : List AppAct) (s : App) : Prop :=
  ∃ past now, past <+: now ∧ now <+: acts ∧ s.Shows past ∧ ∀ snap, s.Holds snap → Moment now snap

theorem step_follows (h : s.Follows acts) (hlinked : s.Linked)
    (hkbuf : Moment acts s.reader.dev.kbuf) (a : AppAct) : (s.step a).Follows (acts ++ [a]) := by
  obtain ⟨past, now, hpast, hnow, hshows, hholds⟩ := h
  have hnow' := hnow.trans (List.prefix_append acts [a])
  rcases step_cases s a with ⟨k, -, hstep⟩ | ⟨-, ⟨hpc, hstep⟩ |
    ⟨fate, snap, -, hpc, hclear, hstep⟩ | ⟨hpc, hstep⟩ | ⟨pc, hstep, -, hcopy⟩⟩
  · rw [hstep]
    exact ⟨past, now, hpast, hnow', hshows.of_same rfl rfl, hholds⟩
  · rw [hstep]
    have hprinted := showKeys_shows hshows (hholds s.buf (Or.inr ⟨hpc, rfl⟩)) hpast
    refine ⟨now, now, List.prefix_rfl, hnow', hprinted, ?_⟩
    intro snap h
    rcases h with ⟨-, hclear⟩ | ⟨hprint, -⟩
    · have hidle : s.reader.pc = .clear snap := hclear
      simp [hlinked.idle hpc] at hidle
    · simp [showKeys] at hprint
  · rw [hstep]
    refine ⟨past, now, hpast, hnow', hshows.of_same rfl rfl, ?_⟩
    intro snap' h
    rcases h with ⟨hread, -⟩ | ⟨-, rfl⟩
    · simp at hread
    · exact hholds snap (Or.inl ⟨hpc, hclear⟩)
  · rw [hstep]
    refine ⟨past, now, hpast, hnow', hshows.of_same rfl rfl, ?_⟩
    intro snap h
    simp [Holds] at h
  · rw [hstep]
    by_cases hfresh : ∃ snap, pc = .clear snap ∧ s.pc = .read ∧ snap = s.reader.dev.kbuf
    · -- the copy is of this very moment
      obtain ⟨snap, rfl, hread, rfl⟩ := hfresh
      refine ⟨past, acts, hpast.trans hnow, List.prefix_append acts [a], hshows.of_same rfl rfl, ?_⟩
      intro snap h
      rcases h with ⟨-, hclear⟩ | ⟨hprint, -⟩
      · obtain rfl := ReaderPc.clear.inj hclear
        exact hkbuf
      · exact absurd (hread.symm.trans hprint) (by simp)
    · refine ⟨past, now, hpast, hnow', hshows.of_same rfl rfl, ?_⟩
      intro snap h
      rcases h with ⟨hread, hclear⟩ | hprint
      · rcases hcopy snap hclear with hold | ⟨-, hkbuf⟩
        · exact hholds snap (Or.inl ⟨hread, hold⟩)
        · exact absurd ⟨snap, hclear, hread, hkbuf⟩ hfresh
      · exact hholds snap (Or.inr hprint)

theorem run_follows (acts : List AppAct) : (machine.run acts).Follows acts := by
  apply machine.run_induction (I := fun acts s => s.Follows acts)
  · refine ⟨[], [], List.prefix_rfl, List.prefix_rfl, ⟨?_, ?_, ?_, ?_⟩, ?_⟩
    · exact fun key => (handled_state keys_reportsRemainder [] key).2
    · exact fun _ => rfl
    · exact fun _ => Nat.le_refl 0
    · exact fun _ _ => ⟨rfl, iff_of_true rfl rfl⟩
    · intro snap h
      simp [Holds, machine, start, Reader.start] at h
  · exact fun acts a ih => step_follows ih (run_linked acts) (run_moment acts) a

/-- The mark tells of every event after the last read, which has shown the keys as they were. -/
structure Current (s : App) : Prop where
  marked : s.reader.Marked
  fresh : s.reader.since = 0 → s.reader.last = s.reader.dev.kbuf

theorem step_current (h : s.Current) {a : AppAct} (hfresh : s.FreshCopies a) :
    (s.step a).Current := by
  rcases step_cases s a with ⟨k, -, hstep⟩ | ⟨-, ⟨-, hstep⟩ |
    ⟨fate, snap, rfl, -, hclear, hstep⟩ | ⟨-, hstep⟩ | ⟨pc, hstep, -, -⟩⟩
  · rw [hstep]
    refine ⟨by simp [Reader.Marked, Driver.event], fun h0 => absurd h0 (Nat.succ_ne_zero _)⟩
  · rw [hstep]
    exact ⟨h.marked, h.fresh⟩
  · rw [hstep]
    exact ⟨rfl, fun _ => (hfresh snap hclear).symm⟩
  · rw [hstep]
    exact ⟨h.marked, h.fresh⟩
  · rw [hstep]
    exact ⟨h.marked, h.fresh⟩

theorem run_current (h : machine.Meets FreshCopies acts) : (machine.run acts).Current :=
  Machine.run_invariant_of_meets (M := machine) (I := Current) ⟨rfl, fun _ => rfl⟩
    (fun _ _ hfresh hcurrent => step_current hcurrent hfresh) h

/-- A program that waits has printed the state of every key. -/
theorem Current.waits (h : s.Current) (hlinked : s.Linked) (hwaits : s.Waits) :
    s.oldbuf = s.reader.dev.kbuf := by
  rw [hlinked.seen hwaits.1]
  apply h.fresh
  by_contra hpos
  have hset := (h.marked.awake_iff keys).mpr (by omega)
  exact absurd (hset.symm.trans hwaits.2.2) (by decide)

/-- How far the program is from waiting, if no key is touched. -/
def rank (s : App) : Nat :=
  let again := if keys.awake s.reader.dev.flag then 5 else 0
  match s.pc with
  | .exited => 0
  | .print => again + 2
  | .read =>
    match s.reader.pc with
    | .idle => again + 1
    | .wait => again
    | .copy => 4
    | .clear _ => 3

/-- The program goes on, and what it has copied is still so. -/
def Going (s : App) : Prop :=
  s.pc ≠ .exited ∧ s.Linked ∧ s.Current ∧ s.FreshCopies (.run .success)

theorem going_nearer (h : s.Going) (hwaits : ¬ s.Waits) :
    (s.step (.run .success)).Going ∧ (s.step (.run .success)).rank < s.rank := by
  obtain ⟨hexit, hlinked, hcurrent, hfresh⟩ := h
  have hlinked' : (s.step (.run .success)).Linked := step_linked hlinked _
  have hcurrent' := step_current hcurrent hfresh
  suffices hmove : (s.step (.run .success)).pc ≠ .exited ∧
      (s.step (.run .success)).FreshCopies (.run .success) ∧
      (s.step (.run .success)).rank < s.rank from
    ⟨⟨hmove.1, hlinked', hcurrent', hmove.2.1⟩, hmove.2.2⟩
  obtain ⟨main, hmain⟩ : ∃ main, s.pc = main := ⟨_, rfl⟩
  obtain ⟨pc, hpc⟩ : ∃ pc, s.reader.pc = pc := ⟨_, rfl⟩
  cases main with
  | exited => exact absurd hmain hexit
  | print =>
    have hidle := hlinked.idle hmain
    rw [run_print _ hmain]
    cases hflag : keys.awake s.reader.dev.flag <;>
      simp [FreshCopies, rank, showKeys, hidle, hmain, hflag]
  | read =>
    cases pc with
    | idle =>
      rw [run_idle _ hmain hpc]
      simp [FreshCopies, rank, hpc, hmain]
    | wait =>
      have hflag : keys.awake s.reader.dev.flag = true := by
        rw [← Bool.not_eq_false]
        exact fun h => hwaits ⟨hmain, hpc, h⟩
      rw [run_awake _ hmain hpc hflag]
      simp [FreshCopies, rank, hpc, hmain, hflag]
    | copy =>
      have hres : CopyFate.success.residue 4 = 0 := rfl
      rw [run_copy _ hmain hpc hres]
      simp [FreshCopies, rank, hpc, hmain]
    | clear snap =>
      rw [run_clear _ hmain hpc]
      simp [FreshCopies, rank, hpc, hmain, Reader.leave, keys]

theorem display_parity (h : s.Shows past) (key : Key) :
    s.displayed key = decide ((eventsOf past).count key % 2 = 1) := by
  rw [h.display key, Bool.eq_iff_iff, bne_iff_ne, decide_eq_true_iff, h.moment key, ne_eq,
    encode_eq_zero_iff]
  omega

theorem eventsOf_program (more : List AppAct) (h : ∀ a ∈ more, a = .run .success) :
    eventsOf more = [] := by
  apply List.filterMap_eq_nil_iff.mpr
  intro a ha
  rw [h a ha]

/-- From a state where the program goes on it comes to wait, without any event, with the state of
every key on the screen. -/
theorem catches_up (hgoing : (machine.run acts).Going) :
    ∃ more, (∀ a ∈ more, a = AppAct.run .success) ∧ (machine.run (acts ++ more)).Waits ∧
      ∀ key, (machine.run (acts ++ more)).displayed key =
        decide ((eventsOf acts).count key % 2 = 1) := by
  have hnearer (s : App) (h : s.Going) (hnot : ¬ s.Waits) :
      ∃ a, a = AppAct.run .success ∧ (s.step a).Going ∧ (s.step a).rank < s.rank :=
    ⟨.run .success, rfl, going_nearer h hnot⟩
  obtain ⟨more, hmore, hend, hwaits⟩ := machine.reaches_of_measure rank hnearer hgoing
  rw [← Machine.run_append] at hend hwaits
  refine ⟨more, hmore, hwaits, fun key => ?_⟩
  obtain ⟨past, now, -, -, hshows, -⟩ := run_follows (acts ++ more)
  have hmoment := run_moment (acts ++ more) key
  rw [eventsOf_append, eventsOf_program more hmore, List.append_nil] at hmoment
  have hseen := hend.2.2.1.waits hend.2.1 hwaits
  rw [hshows.display key, hseen, hmoment, Bool.eq_iff_iff, bne_iff_ne, decide_eq_true_iff, ne_eq,
    encode_eq_zero_iff]
  omega

/-- Any order of key events, signals and steps of the program: the screen shows the keys as they
were at one moment, with no more lines for a key than it has had events; up to 2^31 of them the
lines say down and up in turn. If a read never hands out states that have changed since they were
copied, then a program that has not failed comes to wait whenever the keys are left alone, and
shows every key as it is. -/
theorem screen_follows_keys (acts : List AppAct) :
    let s := machine.run acts
    (∃ past, past <+: acts ∧
      ∀ key, s.displayed key = decide ((eventsOf past).count key % 2 = 1) ∧
        (linesOf key s.lines).length ≤ (eventsOf past).count key) ∧
    (∀ key, (eventsOf acts).count key ≤ 2147483648 →
      linesOf key s.lines = alternating (linesOf key s.lines).length) ∧
    (machine.Meets FreshCopies (acts ++ [.run .success]) → s.pc ≠ .exited →
      ∃ more, (∀ a ∈ more, a = AppAct.run .success) ∧ (machine.run (acts ++ more)).Waits ∧
        ∀ key, (machine.run (acts ++ more)).displayed key =
          decide ((eventsOf acts).count key % 2 = 1)) := by
  intro s
  obtain ⟨past, now, hpast, hnow, hshows, -⟩ := run_follows acts
  refine ⟨⟨past, hpast.trans hnow, ?_⟩, ?_, ?_⟩
  · exact fun key => ⟨display_parity hshows key, hshows.lines_le key⟩
  · intro key hbound
    have hcount := eventsOf_count_le (hpast.trans hnow) key
    exact (hshows.alternate key (hcount.trans hbound)).1
  · intro hmeets hexit
    obtain ⟨hacts, hnext⟩ := (Machine.meets_concat acts _).mp hmeets
    exact catches_up ⟨hexit, run_linked acts, run_current hacts, hnext⟩

end App

end KernelDrivers.Keys
