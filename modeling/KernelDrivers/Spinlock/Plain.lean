import KernelDrivers.Framework.CriticalSection
import Mathlib.Data.List.Basic

namespace KernelDrivers.Spinlock.Plain

open Framework

/-- What the drivers that take a plain spin lock do not share: how many lines a call prints, the
first count, and the line itself. -/
structure Printer where
  lines : Nat
  first : Int32
  format : String → Int32 → String

/-- `OUT_STRING_CNT` and `g_count`. -/
def locksSpinlock : Printer where
  lines := 3
  first := 0
  format str count := "\"" ++ toString count.toInt ++ "\": " ++ str ++ "\n"

/-- `CNT` and `kcnt`. -/
def lockSpin : Printer where
  lines := 5
  first := 1
  format str count := str ++ "\t-->   " ++ toString count.toInt ++ "\n"

/-- The counter of the driver, and the log of the kernel. -/
structure Dev where
  count : Int32
  log : List String

/-- The places in round `i` of the loop. -/
inductive Pc where
  | test (i : Nat)
  | printk (i : Nat)
  | countUp (i : Nat)
  | mdelay (i : Nat)

structure Local where
  str : String
  pc : Pc

/-- `spin_ioctl` with `print_string`, and `demo_unlocked_ioctl` with `print_kcnt_str`. -/
def ioctl (D : Printer) : Section Dev String Local Int where
  init := ⟨D.first, []⟩
  enter str := .inl ⟨str, .test 0⟩
  body dev l :=
    let goto (dev : Dev) (pc : Pc) : Dev × (Local ⊕ Int) := (dev, .inl { l with pc })
    match l.pc with
    | .test i => if i < D.lines then goto dev (.printk i) else (dev, .inr 0)
    | .printk i => goto { dev with log := dev.log ++ [D.format l.str dev.count] } (.countUp i)
    | .countUp i => goto { dev with count := dev.count + 1 } (.mdelay i)
    | .mdelay i => goto dev (.test (i + 1))

/-- The strings of the calls served so far; a call is served at once. -/
def served : SeqSpec (List String) String Int := ⟨[], fun strs str => (strs ++ [str], 0)⟩

/-- Lines that are counted up from the first count on. -/
def numbered (D : Printer) (strs : List String) : List String :=
  strs.mapIdx fun i str => D.format str (D.first + Int32.ofNat i)

/-- The strings of the lines that the calls print. -/
def blocks (D : Printer) (strs : List String) : List String :=
  strs.flatMap (List.replicate D.lines)

structure Printed (D : Printer) (dev : Dev) (strs : List String) : Prop where
  log : dev.log = numbered D strs
  count : dev.count = D.first + Int32.ofNat strs.length

variable {D : Printer}

theorem numbered_concat (strs : List String) (str : String) :
    numbered D (strs ++ [str]) =
      numbered D strs ++ [D.format str (D.first + Int32.ofNat strs.length)] := by
  simp [numbered, List.mapIdx_append]

theorem count_succ (n : Nat) : Int32.ofNat (n + 1) = Int32.ofNat n + 1 := by
  simp

theorem blocks_concat (strs : List String) (str : String) :
    blocks D (strs ++ [str]) = blocks D strs ++ List.replicate D.lines str := by
  simp [blocks]

def Rep (D : Printer) (strs : List String) (dev : Dev) : Prop := Printed D dev (blocks D strs)

/-- In round `i` a call has printed its string `i` times behind those of the calls before. -/
def sofar (D : Printer) (strs : List String) (str : String) (i : Nat) : List String :=
  blocks D strs ++ List.replicate i str

theorem sofar_succ (strs : List String) (str : String) (i : Nat) :
    sofar D strs str (i + 1) = sofar D strs str i ++ [str] := by
  simp [sofar, List.replicate_succ']

structure Mid (D : Printer) (strs : List String) (str : String) (dev : Dev) (l : Local) :
    Prop where
  same : l.str = str
  at_pc : match l.pc with
    | .test i => i ≤ D.lines ∧ Printed D dev (sofar D strs str i)
    | .printk i => i < D.lines ∧ Printed D dev (sofar D strs str i)
    | .countUp i => i < D.lines ∧ dev.log = numbered D (sofar D strs str (i + 1)) ∧
      dev.count = D.first + Int32.ofNat (sofar D strs str i).length
    | .mdelay i => i < D.lines ∧ Printed D dev (sofar D strs str (i + 1))

theorem ioctl_simulates : (ioctl D).Simulates served (Rep D) (Mid D) where
  init := ⟨rfl, (Int32.add_zero _).symm⟩
  early strs str r h := by cases h
  start strs str dev l h hrep := by
    cases h
    refine ⟨rfl, Nat.zero_le _, ?_⟩
    rw [sofar, List.replicate_zero, List.append_nil]
    exact hrep
  next strs str dev l dev' l' hmid h := by
    obtain ⟨str', pc⟩ := l
    obtain ⟨rfl, hat⟩ := hmid
    cases pc with
    | test i =>
      simp only [ioctl] at h
      split at h
      case isTrue hlt =>
        cases h
        exact ⟨rfl, hlt, hat.2⟩
      case isFalse => cases h
    | printk i =>
      cases h
      obtain ⟨hlt, hlog, hcount⟩ := hat
      refine ⟨rfl, hlt, ?_, hcount⟩
      rw [sofar_succ, numbered_concat, ← hlog, ← hcount]
    | countUp i =>
      cases h
      obtain ⟨hlt, hlog, hcount⟩ := hat
      refine ⟨rfl, hlt, hlog, ?_⟩
      rw [sofar_succ, List.length_append, List.length_singleton, count_succ, ← Int32.add_assoc,
        ← hcount]
    | mdelay i =>
      cases h
      exact ⟨rfl, hat.1, hat.2⟩
  done strs str dev l dev' r hmid h := by
    obtain ⟨str', pc⟩ := l
    obtain ⟨rfl, hat⟩ := hmid
    cases pc with
    | test i =>
      simp only [ioctl] at h
      split at h
      case isTrue => cases h
      case isFalse hge =>
        cases h
        have hi : i = D.lines := Nat.le_antisymm hat.1 (Nat.le_of_not_lt hge)
        refine ⟨rfl, ?_⟩
        rw [served, Rep, blocks_concat, ← hi]
        exact hat.2
    | printk i => cases h
    | countUp i => cases h
    | mdelay i => cases h

/-- A call inside has printed some of its lines. -/
theorem Mid.sofar {strs : List String} {str : String} {dev : Dev} {l : Local}
    (h : Mid D strs str dev l) :
    ∃ i, i ≤ D.lines ∧ dev.log = numbered D (Plain.sofar D strs str i) := by
  have hat := h.at_pc
  cases hpc : l.pc with
  | test i => rw [hpc] at hat; exact ⟨i, hat.1, hat.2.log⟩
  | printk i => rw [hpc] at hat; exact ⟨i, Nat.le_of_lt hat.1, hat.2.log⟩
  | countUp i => rw [hpc] at hat; exact ⟨i + 1, hat.1, hat.2.1⟩
  | mdelay i => rw [hpc] at hat; exact ⟨i + 1, hat.1, hat.2.log⟩

/-- The steps that are left to a call inside, at most. -/
def left (D : Printer) (l : Local) : Nat :=
  match l.pc with
  | .test i => 4 * (D.lines - i)
  | .printk i => 4 * (D.lines - i) - 1
  | .countUp i => 4 * (D.lines - i) - 2
  | .mdelay i => 4 * (D.lines - i) - 3

theorem body_left {strs : List String} {str : String} {dev dev' : Dev} {l l' : Local}
    (hmid : Mid D strs str dev l) (h : (ioctl D).body dev l = (dev', .inl l')) :
    left D l' < left D l := by
  obtain ⟨str', pc⟩ := l
  have hat := hmid.at_pc
  cases pc with
  | test i =>
    simp only [ioctl] at h
    split at h
    case isTrue hlt =>
      cases h
      simp only [left]
      omega
    case isFalse => cases h
  | printk i =>
    cases h
    have hlt : i < D.lines := hat.1
    simp only [left]
    omega
  | countUp i =>
    cases h
    have hlt : i < D.lines := hat.1
    simp only [left]
    omega
  | mdelay i =>
    cases h
    have hlt : i < D.lines := hat.1
    simp only [left]
    omega

theorem after_served (h : List (HistoryEvent String String Int)) :
    Section.after served h = (completions h).map Completed.op := by
  have hreplay (l : List (Completed String Int)) (strs : List String) :
      served.replay strs (l.map Completed.exchange) = strs ++ l.map Completed.op := by
    induction l generalizing strs with
    | nil => exact (List.append_nil _).symm
    | cons c l ih =>
      have hnext := ih (strs ++ [c.op])
      rw [List.append_assoc] at hnext
      exact hnext
  exact hreplay _ []

/-- What is in the log, at any time: the lines of the calls that have returned, in the order in
which they did, and then some lines of a single other call. -/
structure Orderly (D : Printer) {P : Type} [DecidableEq P]
    (s : Shared Bool Dev String Local Int P) : Prop where
  log : ∃ str i, i ≤ D.lines ∧ s.data.log =
    numbered D (sofar D ((completions s.history).map Completed.op) str i)
  idle : s.lock = false →
    s.data.log = numbered D (blocks D ((completions s.history).map Completed.op))
  linearizable : Linearizable served s.history
  returns : ∀ p, ∃ more : List P,
    (((ioctl D).machine .flag P).runFrom s (more.map .run)).client p = none

variable {P : Type} [DecidableEq P]

theorem orderly_of_inv {s : Shared Bool Dev String Local Int P}
    (h : Section.Inv .flag (ioctl D) served (Rep D) (Mid D) s) : Orderly D s where
  log := by
    have hrep {strs : List String} (hrep : Rep D strs s.data) :
        ∃ str i, i ≤ D.lines ∧ s.data.log = numbered D (sofar D strs str i) := by
      refine ⟨"", 0, Nat.zero_le _, ?_⟩
      rw [sofar, List.replicate_zero, List.append_nil]
      exact hrep.log
    rw [← after_served]
    cases h.owned with
    | inl hfree => exact hrep hfree.2.1
    | inr hheld =>
      obtain ⟨-, p, c, -, hcrit, hprog, -⟩ := hheld
      unfold Section.Progress at hprog
      cases hstage : c.stage with
      | enter => simp [Client.critical, hstage] at hcrit
      | lock l => simp [Client.critical, hstage] at hcrit
      | inside l =>
        rw [hstage] at hprog
        exact ⟨c.call, hprog.sofar⟩
      | unlock r =>
        -- the holder has printed all its lines
        rw [hstage] at hprog
        refine ⟨c.call, D.lines, Nat.le_refl _, ?_⟩
        rw [sofar, ← blocks_concat]
        exact hprog.2.log
  idle hfree := by
    rw [← after_served]
    exact (h.rep_of_free hfree).log
  linearizable := h.linearizable
  returns := Section.can_finish ioctl_simulates (left D)
    (fun _ _ _ _ _ _ hmid hbody => body_left hmid hbody) h

/-- However the calls of any processes overlap, both drivers with a plain spin lock print the
lines of each call together, numbered from the first count on. -/
theorem plain_spinlock_orderly (acts : List (Section.Act String P)) :
    Orderly locksSpinlock (((ioctl locksSpinlock).machine .flag P).run acts) ∧
      Orderly lockSpin (((ioctl lockSpin).machine .flag P).run acts) :=
  ⟨orderly_of_inv (Section.run_inv ioctl_simulates _ acts),
    orderly_of_inv (Section.run_inv ioctl_simulates _ acts)⟩

end KernelDrivers.Spinlock.Plain
