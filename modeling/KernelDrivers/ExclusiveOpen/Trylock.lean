import Mathlib.Data.Fintype.Sum
import KernelDrivers.Buzzer.Ioctl
import KernelDrivers.Framework.Counting
import KernelDrivers.Spinlock.Plain

namespace KernelDrivers.ExclusiveOpen.Trylock

open Framework Kernel

/-- A driver that takes its lock with a trylock in `open` and releases it in `release`, and whose
calls run between them without any lock. `P` are the descriptors; those that come from one `open`
refer to the same file. `T` are the threads, each with at most one call under way, which holds
the file that it was made on. -/
structure State (D C L R P T : Type*) where
  locked : Bool
  data : D
  fd : P → Option Nat
  fCount : Nat → Nat
  nextFile : Nat
  call : T → Option (Nat × C × L)
  opens : List (P × Int)
  served : List (C × R)

inductive Act (C P T : Type*) where
  | openDev (p : P)
  /-- `fork` or `dup`: the descriptor `q` comes to refer to the file of `p`. -/
  | share (p q : P)
  | ioctl (t : T) (p : P) (call : C)
  | run (t : T)
  | close (p : P)

variable {D C L R P T A : Type*} [DecidableEq P] [DecidableEq T]

namespace State

variable (S : Section D C L R)

/-- `spin_trylock` or `mutex_trylock`, and a new file when the lock is free. -/
def openDev (s : State D C L R P T) (p : P) : State D C L R P T :=
  if s.fd p ≠ none then s
  else if s.locked then { s with opens := s.opens ++ [(p, -ebusy)] }
  else { s with
    locked := true, fd := Function.update s.fd p (some s.nextFile)
    fCount := Function.update s.fCount s.nextFile 1, nextFile := s.nextFile + 1
    opens := s.opens ++ [(p, 0)] }

def share (s : State D C L R P T) (p q : P) : State D C L R P T :=
  match s.fd p with
  | none => s
  | some f =>
    if s.fd q ≠ none then s
    else { s with
      fd := Function.update s.fd q (some f)
      fCount := Function.update s.fCount f (s.fCount f + 1) }

/-- `fput`: `release` is called when nothing holds the file any more. -/
def fput (s : State D C L R P T) (f : Nat) : State D C L R P T :=
  { s with
    fCount := Function.update s.fCount f (s.fCount f - 1)
    locked := if s.fCount f = 1 then false else s.locked }

def close (s : State D C L R P T) (p : P) : State D C L R P T :=
  match s.fd p with
  | none => s
  | some f => fput { s with fd := Function.update s.fd p none } f

/-- A thread makes a call on a descriptor, while others may have calls under way on it. -/
def ioctl (s : State D C L R P T) (t : T) (p : P) (call : C) : State D C L R P T :=
  match s.call t, s.fd p with
  | none, some f =>
    match S.enter call with
    | .inl l => { s with
        call := Function.update s.call t (some (f, call, l))
        fCount := Function.update s.fCount f (s.fCount f + 1) }
    | .inr r => { s with served := s.served ++ [(call, r)] }
  | _, _ => s

def run (s : State D C L R P T) (t : T) : State D C L R P T :=
  match s.call t with
  | none => s
  | some (f, call, l) =>
    match S.body s.data l with
    | (data, .inl l) => { s with data, call := Function.update s.call t (some (f, call, l)) }
    | (data, .inr r) =>
      fput { s with
        data, call := Function.update s.call t none, served := s.served ++ [(call, r)] } f

def step (s : State D C L R P T) : Act C P T → State D C L R P T
  | .openDev p => s.openDev p
  | .share p q => s.share p q
  | .ioctl t p call => s.ioctl S t p call
  | .run t => s.run S t
  | .close p => s.close p

/-- The file that a descriptor or the call of a thread holds. -/
def held (s : State D C L R P T) : P ⊕ T → Option Nat :=
  Sum.elim s.fd fun t => (s.call t).map Prod.fst

end State

def machine (S : Section D C L R) (P T : Type*) [DecidableEq P] [DecidableEq T] :
    Machine (State D C L R P T) (Act C P T) :=
  ⟨⟨false, S.init, fun _ => none, fun _ => 0, 0, fun _ => none, [], []⟩, State.step S⟩

def refers (f : Nat) (held : Option Nat) : Bool := held == some f

/-- Files are counted, and the lock belongs to the one that is open. -/
structure Exclusive {H : Type*} [Fintype H] (locked : Bool) (held : H → Option Nat)
    (fCount : Nat → Nat) (nextFile : Nat) : Prop where
  counted : ∀ f, fCount f = countWhere (refers f) held
  fresh : ∀ x f, held x = some f → f < nextFile
  one : ∀ x y f g, held x = some f → held y = some g → f = g
  locked : locked = true ↔ ∃ x f, held x = some f

section Files

variable {H : Type*} [Fintype H] {locked : Bool} {held : H → Option Nat} {fCount : Nat → Nat}
  {nextFile : Nat}

@[simp] theorem refers_none (f : Nat) : refers f none = false := rfl

@[simp] theorem refers_self (f : Nat) : refers f (some f) = true := by simp [refers]

theorem refers_of_ne {f g : Nat} (h : g ≠ f) : refers g (some f) = false := by
  simp [refers, Ne.symm h]

theorem count_ne_zero {f : Nat} {x : H} (h : held x = some f) :
    countWhere (refers f) held ≠ 0 := by
  unfold countWhere
  rw [Finset.card_ne_zero]
  exact ⟨x, by simp [refers, h]⟩

theorem count_eq_zero {f : Nat} (h : ∀ x, held x ≠ some f) : countWhere (refers f) held = 0 :=
  countWhere_eq_zero fun x => by simpa [refers] using h x

/-- While the lock is free no file is open. -/
theorem Exclusive.closed (h : Exclusive false held fCount nextFile) (x : H) : held x = none := by
  by_contra hx
  obtain ⟨f, hf⟩ := Option.ne_none_iff_exists'.mp hx
  exact Bool.false_ne_true (h.locked.mpr ⟨x, f, hf⟩)

variable [DecidableEq H]

/-- What `x` holds changes over to `v`, and the count of the file `f` follows. -/
theorem counted_update (h : ∀ f, fCount f = countWhere (refers f) held) {x : H} {v : Option Nat}
    {f n : Nat} (hn : n + (refers f (held x)).toNat = fCount f + (refers f v).toNat)
    (hother : ∀ g, g ≠ f → refers g v = refers g (held x)) (g : Nat) :
    Function.update fCount f n g = countWhere (refers g) (Function.update held x v) := by
  have hcount := countWhere_update (refers g) held x v
  rw [← h g] at hcount
  by_cases hg : g = f
  · subst hg
    rw [Function.update_self]
    omega
  · rw [hother g hg] at hcount
    rw [Function.update_of_ne hg]
    omega

namespace Exclusive

/-- Opening a new file with the lock. -/
theorem first (h : Exclusive false held fCount nextFile) (x : H) :
    Exclusive true (Function.update held x (some nextFile)) (Function.update fCount nextFile 1)
      (nextFile + 1) := by
  have hup {y : H} {f : Nat} (hy : Function.update held x (some nextFile) y = some f) :
      f = nextFile := by
    rcases update_eq_some hy with ⟨-, hf⟩ | ⟨-, hf⟩
    · exact (Option.some.inj hf).symm
    · cases (h.closed y).symm.trans hf
  constructor
  · apply counted_update h.counted
    · rw [h.closed, h.counted, count_eq_zero fun y => by simp [h.closed y]]
      simp
    · intro g hg
      rw [h.closed, refers_of_ne hg, refers_none]
  · intro y f hy
    exact hup hy ▸ Nat.lt_succ_self _
  · intro y z f g hy hz
    exact (hup hy).trans (hup hz).symm
  · exact iff_of_true rfl ⟨x, nextFile, Function.update_self ..⟩

/-- One more that holds an open file. -/
theorem join (h : Exclusive locked held fCount nextFile) {x y : H} {f : Nat}
    (hy : held y = some f) (hx : held x = none) :
    Exclusive locked (Function.update held x (some f)) (Function.update fCount f (fCount f + 1))
      nextFile := by
  have hup {z : H} {g : Nat} (hz : Function.update held x (some f) z = some g) :
      ∃ w, held w = some g := by
    rcases update_eq_some hz with ⟨-, hg⟩ | ⟨-, hg⟩
    · exact ⟨y, hy.trans hg⟩
    · exact ⟨z, hg⟩
  constructor
  · apply counted_update h.counted
    · rw [hx]
      simp
    · intro g hg
      rw [hx, refers_of_ne hg, refers_none]
  · intro z g hz
    obtain ⟨w, hw⟩ := hup hz
    exact h.fresh w g hw
  · intro z z' g g' hz hz'
    obtain ⟨w, hw⟩ := hup hz
    obtain ⟨w', hw'⟩ := hup hz'
    exact h.one w w' g g' hw hw'
  · exact iff_of_true (h.locked.mpr ⟨y, f, hy⟩) ⟨x, f, Function.update_self ..⟩

/-- The last one that lets go of the file gives the lock back; no other one does. -/
theorem drop (h : Exclusive locked held fCount nextFile) {x : H} {f : Nat}
    (hx : held x = some f) :
    Exclusive (if fCount f = 1 then false else locked) (Function.update held x none)
      (Function.update fCount f (fCount f - 1)) nextFile := by
  have hpos : 0 < fCount f := by
    rw [h.counted]
    exact Nat.pos_of_ne_zero (count_ne_zero hx)
  have hcounted : ∀ g, Function.update fCount f (fCount f - 1) g =
      countWhere (refers g) (Function.update held x none) := by
    apply counted_update h.counted
    · rw [hx, refers_self, refers_none]
      simp only [Bool.toNat_true, Bool.toNat_false]
      omega
    · intro g hg
      rw [hx, refers_of_ne hg, refers_none]
  have hup {y : H} {g : Nat} (hy : Function.update held x none y = some g) : held y = some g := by
    rcases update_eq_some hy with ⟨-, hg⟩ | ⟨-, hg⟩
    · cases hg
    · exact hg
  have hleft := hcounted f
  rw [Function.update_self] at hleft
  refine ⟨hcounted, fun y g hy => h.fresh y g (hup hy),
    fun y z g g' hy hz => h.one y z g g' (hup hy) (hup hz), ?_⟩
  by_cases hlast : fCount f = 1
  · rw [if_pos hlast]
    refine iff_of_false Bool.false_ne_true ?_
    rintro ⟨y, g, hy⟩
    obtain rfl := h.one y x g f (hup hy) hx
    have hne : countWhere (refers g) (Function.update held x none) ≠ 0 := count_ne_zero hy
    omega
  · rw [if_neg hlast]
    refine iff_of_true (h.locked.mpr ⟨x, f, hx⟩) ?_
    by_contra hno
    have hzero : countWhere (refers f) (Function.update held x none) = 0 :=
      count_eq_zero fun y hy => hno ⟨y, f, hy⟩
    omega

end Exclusive

end Files

section Steps

variable {S : Section D C L R} {s : State D C L R P T}

theorem held_update_fd (p : P) (v : Option Nat) :
    Function.update s.held (.inl p) v =
      ({ s with fd := Function.update s.fd p v } : State D C L R P T).held :=
  Sum.update_elim_inl

theorem held_update_call (t : T) (v : Option (Nat × C × L)) :
    Function.update s.held (.inr t) (v.map Prod.fst) =
      ({ s with call := Function.update s.call t v } : State D C L R P T).held := by
  unfold State.held
  rw [Sum.update_elim_inr]
  congr 1
  exact (Function.comp_update (fun c : Option (Nat × C × L) => c.map Prod.fst) s.call t v).symm

variable [Fintype P] [Fintype T]

/-- One file at most is open, and it has the lock. -/
def State.Exclusive (s : State D C L R P T) : Prop :=
  Trylock.Exclusive s.locked s.held s.fCount s.nextFile

namespace State.Exclusive

omit [DecidableEq P] [DecidableEq T] in
/-- The driver when a trylock finds its lock free. -/
theorem unlocked (h : s.Exclusive) (hfree : ¬ s.locked = true) :
    Trylock.Exclusive false s.held s.fCount s.nextFile := by
  rw [Bool.not_eq_true] at hfree
  rw [← hfree]
  exact h

theorem openDev (h : s.Exclusive) (p : P) : (s.openDev p).Exclusive := by
  unfold State.openDev
  split
  case isTrue => exact h
  case isFalse =>
    split
    case isTrue => exact h
    case isFalse hfree =>
      have hfirst := (h.unlocked hfree).first (.inl p)
      rw [held_update_fd] at hfirst
      exact hfirst

theorem share (h : s.Exclusive) (p q : P) : (s.share p q).Exclusive := by
  unfold State.share
  split
  case h_1 => exact h
  case h_2 f hp =>
    split
    case isTrue => exact h
    case isFalse hfd =>
      have hjoin := Trylock.Exclusive.join h (x := .inl q) (y := .inl p) hp (not_not.mp hfd)
      rw [held_update_fd] at hjoin
      exact hjoin

theorem close (h : s.Exclusive) (p : P) : (s.close p).Exclusive := by
  unfold State.close
  split
  case h_1 => exact h
  case h_2 f hp =>
    have hdrop := Trylock.Exclusive.drop h (x := .inl p) hp
    rw [held_update_fd] at hdrop
    exact hdrop

theorem ioctl (h : s.Exclusive) (t : T) (p : P) (call : C) : (s.ioctl S t p call).Exclusive := by
  unfold State.ioctl
  split
  case h_1 f ht hp =>
    split
    case h_1 l _ =>
      have hnone : s.held (.inr t) = none := congrArg (Option.map Prod.fst) ht
      have hjoin := Trylock.Exclusive.join h (y := .inl p) hp hnone
      rw [show some f = (some (f, call, l)).map Prod.fst from rfl, held_update_call] at hjoin
      exact hjoin
    case h_2 => exact h
  case h_2 => exact h

/-- A call holds its file until it returns. -/
theorem run (h : s.Exclusive) (t : T) : (s.run S t).Exclusive := by
  unfold State.run
  split
  case h_1 => exact h
  case h_2 f call l ht =>
    have hsome : s.held (.inr t) = some f := congrArg (Option.map Prod.fst) ht
    split
    case h_1 data l' _ =>
      have hsame : Function.update s.held (.inr t) (some f) = s.held := by
        rw [← hsome, Function.update_eq_self]
      rw [show some f = (some (f, call, l')).map Prod.fst from rfl, held_update_call] at hsame
      unfold State.Exclusive at h
      rw [← hsame] at h
      exact h
    case h_2 data r _ =>
      have hdrop := Trylock.Exclusive.drop h hsome
      rw [show none = (none : Option (Nat × C × L)).map Prod.fst from rfl,
        held_update_call] at hdrop
      exact hdrop

theorem step (h : s.Exclusive) (a : Act C P T) : (s.step S a).Exclusive := by
  cases a with
  | openDev p => exact h.openDev p
  | share p q => exact h.share p q
  | ioctl t p call => exact h.ioctl t p call
  | run t => exact h.run t
  | close p => exact h.close p

theorem start : (machine S P T).init.Exclusive where
  counted _ := (count_eq_zero (by rintro (p | t) <;> nofun)).symm
  fresh := by rintro (p | t) f <;> nofun
  one := by rintro (p | t) y f g <;> nofun
  locked := iff_of_false Bool.false_ne_true (by rintro ⟨p | t, f, h⟩ <;> cases h)

end State.Exclusive

end Steps

/-- No descriptor is shared, and each is used by one thread. -/
def Act.Own (owner : P → T) : Act C P T → Prop
  | .share _ _ => False
  | .ioctl t p _ => t = owner p
  | _ => True

def replayed (spec : SeqSpec A C R) (served : List (C × R)) : A := spec.replay spec.init served

/-- The calls of the open file run one after another. -/
structure Serial [Fintype P] [Fintype T] (spec : SeqSpec A C R) (rep : A → D → Prop)
    (mid : A → C → D → L → Prop) (owner : P → T) (s : State D C L R P T) : Prop where
  exclusive : s.Exclusive
  single : ∀ p q, s.fd p ≠ none → s.fd q ≠ none → p = q
  alone : ∀ t u, s.call t ≠ none → s.call u ≠ none → t = u
  own : ∀ t p, s.call t ≠ none → s.fd p ≠ none → t = owner p
  legal : spec.Legal s.served
  quiet : (∀ t, s.call t = none) → rep (replayed spec s.served) s.data
  under_way : ∀ t f call l, s.call t = some (f, call, l) →
    mid (replayed spec s.served) call s.data l

variable [Fintype P] [Fintype T] {S : Section D C L R} {spec : SeqSpec A C R} {rep : A → D → Prop}
  {mid : A → C → D → L → Prop} {owner : P → T} {s : State D C L R P T}

theorem replayed_concat (served : List (C × R)) (call : C) (r : R) :
    replayed spec (served ++ [(call, r)]) = (spec.step (replayed spec served) call).1 := by
  simp [replayed]

theorem legal_served {served : List (C × R)} (h : spec.Legal served) {call : C} {r : R}
    (hr : (spec.step (replayed spec served) call).2 = r) :
    spec.Legal (served ++ [(call, r)]) := (spec.legal_concat _ _).mpr ⟨h, hr⟩

/-- Nothing but the entry of `x` in a table has become empty or has been filled. -/
theorem update_ne_none {α β : Type*} [DecidableEq α] {table : α → Option β} {x y : α}
    {v : Option β} (h : Function.update table x v y ≠ none) : y = x ∨ table y ≠ none := by
  by_cases hy : y = x
  · exact Or.inl hy
  · rw [Function.update_of_ne hy] at h
    exact Or.inr h

namespace Serial

theorem openDev (h : Serial spec rep mid owner s) (p : P) :
    Serial spec rep mid owner (s.openDev p) := by
  have hexclusive := h.exclusive.openDev p
  unfold State.openDev at *
  split
  case isTrue => exact h
  case isFalse hfd =>
    split
    case isTrue => exact { h with }
    case isFalse hfree =>
      rw [if_neg hfd, if_neg hfree] at hexclusive
      have hclosed := (h.exclusive.unlocked hfree).closed
      have hfirst (q : P) (hq : Function.update s.fd p (some s.nextFile) q ≠ none) : q = p :=
        (update_ne_none hq).resolve_right (not_not.mpr (hclosed (.inl q)))
      have hidle (t : T) : s.call t = none := Option.map_eq_none_iff.mp (hclosed (.inr t))
      exact { h with
        exclusive := hexclusive
        single := fun q q' hq hq' => (hfirst q hq).trans (hfirst q' hq').symm
        own := fun t _ ht => absurd (hidle t) ht }

theorem close (h : Serial spec rep mid owner s) (p : P) :
    Serial spec rep mid owner (s.close p) := by
  have hexclusive := h.exclusive.close p
  unfold State.close State.fput at *
  split
  case h_1 => exact h
  case h_2 f hp =>
    simp only [hp] at hexclusive
    have hup (q : P) (hq : Function.update s.fd p none q ≠ none) : s.fd q ≠ none := by
      rcases update_ne_none hq with rfl | hq'
      · exact absurd (Function.update_self ..) hq
      · exact hq'
    exact { h with
      exclusive := hexclusive
      single := fun q q' hq hq' => h.single q q' (hup q hq) (hup q' hq')
      own := fun t q ht hq => h.own t q ht (hup q hq) }

variable (H : S.Simulates spec rep mid)
include H

theorem ioctl (h : Serial spec rep mid owner s) {t : T} {p : P} (call : C) (ht : t = owner p) :
    Serial spec rep mid owner (s.ioctl S t p call) := by
  have hexclusive := h.exclusive.ioctl (S := S) t p call
  unfold State.ioctl at *
  split
  case h_1 f hcall hp =>
    simp only [hcall, hp] at hexclusive
    have hopen : s.fd p ≠ none := by rw [hp]; exact Option.some_ne_none f
    -- whoever had a call under way would be the thread that makes this one
    have hquiet (u : T) : s.call u = none := by
      by_contra hu
      rw [(h.own u p hu hopen).trans ht.symm] at hu
      exact hu hcall
    have hrep := h.quiet hquiet
    split
    case h_1 l henter =>
      simp only [henter] at hexclusive
      have hone (u : T) (hu : Function.update s.call t (some (f, call, l)) u ≠ none) : u = t :=
        (update_ne_none hu).resolve_right (not_not.mpr (hquiet u))
      refine ⟨hexclusive, h.single, fun u v hu hv => (hone u hu).trans (hone v hv).symm, ?_,
        h.legal, ?_, ?_⟩
      · intro u q hu hq
        rw [hone u hu, h.single q p hq hopen]
        exact ht
      · intro hnone
        cases (Function.update_self ..).symm.trans (hnone t)
      · intro u f' call' l' hu
        rcases update_eq_some hu with ⟨-, hc⟩ | ⟨-, hc⟩
        · cases hc
          exact H.start _ _ _ _ henter hrep
        · cases (hquiet u).symm.trans hc
    case h_2 r henter =>
      simp only [henter] at hexclusive
      have hstep := H.early (replayed spec s.served) call r henter
      refine { h with
        exclusive := hexclusive
        legal := legal_served h.legal (congrArg Prod.snd hstep)
        quiet := fun _ => ?_
        under_way := fun u f' call' l' hu => absurd (hu.symm.trans (hquiet u)) nofun }
      rw [replayed_concat, hstep]
      exact hrep
  case h_2 => exact h

theorem run (h : Serial spec rep mid owner s) (t : T) : Serial spec rep mid owner (s.run S t) := by
  have hexclusive := h.exclusive.run (S := S) t
  unfold State.run State.fput at *
  split
  case h_1 => exact h
  case h_2 f call l ht =>
    simp only [ht] at hexclusive
    have hbusy : s.call t ≠ none := by rw [ht]; exact Option.some_ne_none _
    have hmid := h.under_way t f call l ht
    have hwas {v : Option (Nat × C × L)} (u : T)
        (hu : Function.update s.call t v u ≠ none) : s.call u ≠ none := by
      rcases update_ne_none hu with rfl | hu'
      · exact hbusy
      · exact hu'
    have hothers (u : T) (hut : u ≠ t) : s.call u = none := by
      by_contra hu
      exact hut (h.alone u t hu hbusy)
    split
    case h_1 data l' hbody =>
      simp only [hbody] at hexclusive
      refine { h with
        exclusive := hexclusive
        alone := fun u v hu hv => h.alone u v (hwas u hu) (hwas v hv)
        own := fun u q hu hq => h.own u q (hwas u hu) hq
        quiet := fun hnone => ?_
        under_way := fun u f' call' l'' hu => ?_ }
      · cases (Function.update_self ..).symm.trans (hnone t)
      · rcases update_eq_some hu with ⟨-, hc⟩ | ⟨hut, hc⟩
        · cases hc
          exact H.next _ _ _ _ _ _ hmid hbody
        · cases (hothers u hut).symm.trans hc
    case h_2 data r hbody =>
      simp only [hbody] at hexclusive
      obtain ⟨hr, hrep⟩ := H.done _ _ _ _ _ _ hmid hbody
      refine { h with
        exclusive := hexclusive
        alone := fun u v hu hv => h.alone u v (hwas u hu) (hwas v hv)
        own := fun u q hu hq => h.own u q (hwas u hu) hq
        legal := legal_served h.legal hr
        quiet := fun _ => ?_
        under_way := fun u f' call' l'' hu => ?_ }
      · rw [replayed_concat]
        exact hrep
      · rcases update_eq_some hu with ⟨-, hc⟩ | ⟨hut, hc⟩
        · cases hc
        · cases (hothers u hut).symm.trans hc

theorem start : Serial spec rep mid owner (machine S P T).init where
  exclusive := .start
  single _ _ hp := absurd rfl hp
  alone _ _ ht := absurd rfl ht
  own _ _ ht := absurd rfl ht
  legal := trivial
  quiet _ := H.init
  under_way := nofun

end Serial

theorem run_exclusive (acts : List (Act C P T)) : ((machine S P T).run acts).Exclusive :=
  (machine S P T).run_invariant .start (fun _ a h => h.step a) acts

theorem run_serial (H : S.Simulates spec rep mid) (owner : P → T) {acts : List (Act C P T)}
    (hacts : ∀ a ∈ acts, a.Own owner) :
    Serial spec rep mid owner ((machine S P T).run acts) := by
  have hmeets := (Machine.meets_actions (M := machine S P T) (Act.Own owner) acts).mpr hacts
  refine Machine.run_invariant_of_meets (Serial.start H) ?_ hmeets
  intro s a ha h
  cases a with
  | openDev p => exact h.openDev p
  | share p q => exact ha.elim
  | ioctl t p call => exact h.ioctl H call ha
  | run t => exact h.run H t
  | close p => exact h.close p

/-- `demo_unlocked_ioctl` with a `print_kcnt_str` that takes no lock. -/
def print : Section Spinlock.Plain.Dev String Spinlock.Plain.Local Int :=
  Spinlock.Plain.ioctl Spinlock.Plain.lockSpin

theorem print_simulates : print.Simulates Spinlock.Plain.served
    (Spinlock.Plain.Rep Spinlock.Plain.lockSpin) (Spinlock.Plain.Mid Spinlock.Plain.lockSpin) :=
  Spinlock.Plain.ioctl_simulates

/-- The places in `beep_set_hz` and in `beep_mute`. -/
inductive BeepPc where
  | divide (hz : Int32)
  | config (period : Int32)
  | enable
  | cfgpin
  | disable
  | output

/-- `beep_unlocked_ioctl`; after a division by zero there is no board. -/
def beep : Section (Option Buzzer.Board) Buzzer.Call BeepPc Int where
  init := some Buzzer.probed
  enter call :=
    if call.request = Buzzer.BEEP_SET_HZ then
      if call.arg > 4000 then .inr (-einval) else .inl (.divide call.arg.toInt32)
    else .inl .disable
  body b pc :=
    match pc with
    | .divide hz =>
      match Buzzer.periodNs hz.toUInt32 with
      | none => (none, .inr 0)
      | some period => (b, .inl (.config period))
    | .config period =>
      (b.map fun b => b.pwmConfig ((period : Int32) >>> 1) period, .inl .enable)
    | .enable => (b.map fun b => b.pwmEnable, .inl .cfgpin)
    | .cfgpin => (b.map fun b => b.gpioCfgpin (.sfn 2), .inr 0)
    | .disable => (b.map fun b => b.pwmDisable, .inl .output)
    | .output => (b.map fun b => b.gpioDirectionOutput 0, .inr 0)

/-- The calls of the beeper, each made at once. -/
def beeper : SeqSpec (Option Buzzer.Board) Buzzer.Call Int where
  init := some Buzzer.probed
  step b call :=
    (Buzzer.Driver.beep.machine.step b call,
      if call.request = Buzzer.BEEP_SET_HZ ∧ call.arg > 4000 then -einval else 0)

def BeepRep (b board : Option Buzzer.Board) : Prop := board = b

/-- How far a call of the beeper has come with a board that was `b`. -/
def BeepMid (b : Option Buzzer.Board) (call : Buzzer.Call) (board : Option Buzzer.Board)
    (pc : BeepPc) : Prop :=
  let sets := call.request = Buzzer.BEEP_SET_HZ ∧ ¬ call.arg > 4000
  match pc with
  | .divide hz => sets ∧ hz = call.arg.toInt32 ∧ board = b
  | .config period => sets ∧ Buzzer.periodNs call.arg = some period ∧ board = b
  | .enable => sets ∧ ∃ period, Buzzer.periodNs call.arg = some period ∧
    board = b.map fun b => b.pwmConfig ((period : Int32) >>> 1) period
  | .cfgpin => sets ∧ ∃ period, Buzzer.periodNs call.arg = some period ∧
    board = b.map fun b => (b.pwmConfig ((period : Int32) >>> 1) period).pwmEnable
  | .disable => call.request ≠ Buzzer.BEEP_SET_HZ ∧ board = b
  | .output => call.request ≠ Buzzer.BEEP_SET_HZ ∧ board = b.map fun b => b.pwmDisable

theorem beeper_sets {b : Option Buzzer.Board} {call : Buzzer.Call}
    (h : call.request = Buzzer.BEEP_SET_HZ ∧ ¬ call.arg > 4000) :
    beeper.step b call = (b.bind fun b => Buzzer.setPwmHz b call.arg, 0) := by
  have hno : ¬ (call.request = Buzzer.BEEP_SET_HZ ∧ call.arg > 4000) := fun h' => h.2 h'.2
  have hstep (b : Buzzer.Board) : (Buzzer.Driver.beep.ioctl b call.request call.arg).map Prod.snd =
      Buzzer.setPwmHz b call.arg := by
    rw [h.1, show Buzzer.BEEP_SET_HZ = Buzzer.Driver.beep.setHz from rfl, Buzzer.Driver.ioctl_setHz,
      if_neg h.2, Option.map_map]
    exact Option.map_id'
  simp only [beeper, if_neg hno, Buzzer.Driver.machine, hstep]

theorem beeper_mutes {b : Option Buzzer.Board} {call : Buzzer.Call}
    (h : call.request ≠ Buzzer.BEEP_SET_HZ) :
    beeper.step b call = (b.map Buzzer.beepMute, 0) := by
  have hno : ¬ (call.request = Buzzer.BEEP_SET_HZ ∧ call.arg > 4000) := fun h' => h h'.1
  simp only [beeper, if_neg hno, Buzzer.Driver.machine, Buzzer.Driver.ioctl,
    Buzzer.beepUnlockedIoctl, if_neg h]
  cases b <;> rfl

theorem setPwmHz_none {b : Option Buzzer.Board} {hz : UInt32} (h : Buzzer.periodNs hz = none) :
    (b.bind fun b => Buzzer.setPwmHz b hz) = none := by
  cases b with
  | none => rfl
  | some b =>
    rw [Option.bind_some, Buzzer.setPwmHz, h]
    rfl

theorem beep_simulates : beep.Simulates beeper BeepRep BeepMid where
  init := rfl
  early b call r h := by
    simp only [beep] at h
    split at h
    case isTrue hset =>
      split at h
      case isTrue hrange =>
        cases h
        have hstep : Buzzer.Driver.beep.machine.step b call = b := by
          simp only [Buzzer.Driver.machine, Buzzer.Driver.ioctl, Buzzer.beepUnlockedIoctl,
            if_pos hset, if_pos hrange]
          cases b <;> rfl
        simp only [beeper, hstep, if_pos (And.intro hset hrange)]
      case isFalse => cases h
    case isFalse => cases h
  start b call board pc h hrep := by
    simp only [beep] at h
    split at h
    case isTrue hset =>
      split at h
      case isTrue => cases h
      case isFalse hrange =>
        cases h
        exact ⟨⟨hset, hrange⟩, rfl, hrep⟩
    case isFalse hset =>
      cases h
      exact ⟨hset, hrep⟩
  next b call board pc board' pc' hmid h := by
    cases pc with
    | divide hz =>
      obtain ⟨hsets, rfl, hboard⟩ := hmid
      simp only [beep, UInt32.toUInt32_toInt32] at h
      split at h
      case h_1 => cases h
      case h_2 period hperiod =>
        cases h
        exact ⟨hsets, hperiod, hboard⟩
    | config period =>
      obtain ⟨hsets, hperiod, rfl⟩ := hmid
      cases h
      exact ⟨hsets, period, hperiod, rfl⟩
    | enable =>
      obtain ⟨hsets, period, hperiod, rfl⟩ := hmid
      cases h
      exact ⟨hsets, period, hperiod, by rw [Option.map_map]; rfl⟩
    | cfgpin => cases h
    | disable =>
      obtain ⟨hmutes, rfl⟩ := hmid
      cases h
      exact ⟨hmutes, rfl⟩
    | output => cases h
  done b call board pc board' r hmid h := by
    cases pc with
    | divide hz =>
      obtain ⟨hsets, rfl, hboard⟩ := hmid
      simp only [beep, UInt32.toUInt32_toInt32] at h
      split at h
      case h_1 hnone =>
        cases h
        rw [beeper_sets hsets]
        exact ⟨rfl, (setPwmHz_none hnone).symm⟩
      case h_2 => cases h
    | config period => cases h
    | enable => cases h
    | cfgpin =>
      obtain ⟨hsets, period, hperiod, rfl⟩ := hmid
      cases h
      rw [beeper_sets hsets]
      refine ⟨rfl, ?_⟩
      rw [BeepRep, Option.map_map]
      cases b with
      | none => rfl
      | some b =>
        simp only [Option.map_some, Option.bind_some, Buzzer.setPwmHz, hperiod]
        rfl
    | disable => cases h
    | output =>
      obtain ⟨hmutes, rfl⟩ := hmid
      cases h
      rw [beeper_mutes hmutes]
      refine ⟨rfl, ?_⟩
      rw [BeepRep, Option.map_map]
      rfl

/-- One file at most is open, and the lock is held as long as one is: as long as a descriptor
refers to it or a call made on it is under way. -/
def OneFile (s : State D C L R P T) : Prop :=
  (∀ x y f g, s.held x = some f → s.held y = some g → f = g) ∧
    (s.locked = true ↔ ∃ x f, s.held x = some f)

omit [DecidableEq P] [DecidableEq T] in
theorem State.Exclusive.oneFile (h : s.Exclusive) : OneFile s := ⟨h.one, h.locked⟩

section Drivers

variable {P T : Type} [DecidableEq P] [DecidableEq T] [Fintype P] [Fintype T]

/-- Whatever threads and descriptors do, one open file at a time has the printing driver; as long
as no descriptor is shared and each is used by one thread, the lines of each call stay together
and are counted up, though no lock is taken to print them. -/
theorem spin_trylock_orderly (acts : List (Act String P T)) :
    OneFile ((machine print P T).run acts) ∧
      ∀ owner : P → T, (∀ a ∈ acts, a.Own owner) →
        ∃ str i, i ≤ 5 ∧ ((machine print P T).run acts).data.log =
          Spinlock.Plain.numbered Spinlock.Plain.lockSpin
            (Spinlock.Plain.sofar Spinlock.Plain.lockSpin
              (((machine print P T).run acts).served.map Prod.fst) str i) := by
  refine ⟨(run_exclusive acts).oneFile, fun owner hacts => ?_⟩
  have h := run_serial print_simulates owner hacts
  have hstrs (l : List (String × Int)) :
      replayed Spinlock.Plain.served l = l.map Prod.fst := by
    induction l using List.reverseRecOn with
    | nil => rfl
    | append_singleton l e ih => rw [replayed_concat, ih, List.map_append]; rfl
  by_cases hquiet : ∀ t, ((machine print P T).run acts).call t = none
  · refine ⟨"", 0, Nat.zero_le _, ?_⟩
    rw [Spinlock.Plain.sofar, List.replicate_zero, List.append_nil, ← hstrs]
    exact (h.quiet hquiet).log
  · obtain ⟨t, ht⟩ := not_forall.mp hquiet
    obtain ⟨⟨f, call, l⟩, hcall⟩ := Option.ne_none_iff_exists'.mp ht
    rw [← hstrs]
    exact ⟨call, (h.under_way t f call l hcall).sofar⟩

/-- Whatever threads and descriptors do, one open file at a time has the beeper; as long as no
descriptor is shared and each is used by one thread, the board between two calls is the one that
the calls served make of it in their order. -/
theorem beep_trylock_serial (acts : List (Act Buzzer.Call P T)) :
    OneFile ((machine beep P T).run acts) ∧
      ∀ owner : P → T, (∀ a ∈ acts, a.Own owner) →
        beeper.Legal ((machine beep P T).run acts).served ∧
          ((∀ t, ((machine beep P T).run acts).call t = none) →
            ((machine beep P T).run acts).data = Buzzer.Driver.beep.machine.run
              (((machine beep P T).run acts).served.map Prod.fst)) := by
  refine ⟨(run_exclusive acts).oneFile, fun owner hacts => ?_⟩
  have h := run_serial beep_simulates owner hacts
  refine ⟨h.legal, fun hquiet => ?_⟩
  have hrun (l : List (Buzzer.Call × Int)) :
      replayed beeper l = Buzzer.Driver.beep.machine.run (l.map Prod.fst) := by
    induction l using List.reverseRecOn with
    | nil => rfl
    | append_singleton l e ih =>
      rw [replayed_concat, ih, List.map_append, List.map_singleton, Machine.run_concat]
      rfl
  exact (h.quiet hquiet).trans (hrun _)

end Drivers

end KernelDrivers.ExclusiveOpen.Trylock
