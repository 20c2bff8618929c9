import KernelDrivers.Framework.CriticalSection

namespace KernelDrivers.LockDemo.Threads

open Framework

def CNT : Nat := 100000000

def INT_MAX : Int := 2147483647

inductive Tid where
  | fool0
  | fool1
  deriving DecidableEq

/-- `pthread_spin_init`, `pthread_spin_lock` and `pthread_spin_unlock`. -/
def spin : Guard Bool := .flag

/-- `(*(int *)data)++` in one thread and `(*(int *)data)--` in the other. -/
def delta : Tid → Int
  | .fool0 => 1
  | .fool1 => -1

inductive Pc where
  | load
  | modify (tmp : Int)
  | store (tmp : Int)

structure Local where
  tid : Tid
  pc : Pc

/-- One round of `do_thread_fool0` or `do_thread_fool1`, the variable a memory cell. -/
def round : Section Int Tid Local Unit where
  init := 9527
  enter tid := .inl ⟨tid, .load⟩
  body var l :=
    match l.pc with
    | .load => (var, .inl { l with pc := .modify var })
    | .modify tmp => (var, .inl { l with pc := .store (tmp + delta l.tid) })
    | .store tmp => (tmp, .inr ())

inductive MainPc where
  | create0
  | create1
  | join0
  | join1
  | print
  | returned
  | exited
  deriving DecidableEq

/-- The threads that run while `main` is where it is; `exit(1)` and the return from `main` end
them all. -/
def MainPc.started : MainPc → Tid → Bool
  | create0, _ => false
  | create1, tid => tid == .fool0
  | returned, _ => false
  | exited, _ => false
  | _, _ => true

/-- The process: the variable and the lock with the rounds under way, the loop counters, `main`
and what it has printed. -/
structure System where
  shared : Shared Bool Int Tid Local Unit Tid
  i : Tid → Nat
  main : MainPc
  out : List Int

inductive Act where
  | thread (tid : Tid)
  /-- `main` goes on; `created` is whether `pthread_create` succeeds there. -/
  | main (created : Bool)

namespace System

/-- The thread has returned from its loop. -/
def finished (s : System) (tid : Tid) : Bool :=
  (s.shared.client tid).isNone && s.i tid == CNT

def runThread (s : System) (tid : Tid) : System :=
  match s.shared.client tid with
  | none =>
    if s.i tid < CNT then { s with shared := Section.step spin round s.shared (.invoke tid tid) }
    else s
  | some _ =>
    let shared := Section.step spin round s.shared (.run tid)
    let i := if (shared.client tid).isNone then Function.update s.i tid (s.i tid + 1) else s.i
    { s with shared, i }

def runMain (s : System) (created : Bool) : System :=
  match s.main with
  | .create0 => { s with main := if created then .create1 else .exited }
  | .create1 => { s with main := if created then .join0 else .exited }
  | .join0 => if s.finished .fool0 then { s with main := .join1 } else s
  | .join1 => if s.finished .fool1 then { s with main := .print } else s
  | .print => { s with out := s.out ++ [s.shared.data], main := .returned }
  | .returned => s
  | .exited => s

def step (s : System) : Act → System
  | .thread tid => if s.main.started tid then s.runThread tid else s
  | .main created => s.runMain created

end System

def machine : Machine System Act :=
  ⟨⟨(Section.machine spin round Tid).init, fun _ => 0, .create0, []⟩, System.step⟩

/-- The variable as a counter that the rounds change at once. -/
def counter : SeqSpec Int Tid Unit := ⟨9527, fun v tid => (v + delta tid, ())⟩

def Rep (v var : Int) : Prop := var = v

structure Mid (v : Int) (tid : Tid) (var : Int) (l : Local) : Prop where
  same : l.tid = tid
  kept : var = v
  tmp : match l.pc with
    | .load => True
    | .modify tmp => tmp = v
    | .store tmp => tmp = v + delta tid

theorem round_simulates : round.Simulates counter Rep Mid where
  init := rfl
  early v tid r h := by cases h
  start v tid var l h hrep := by
    cases h
    exact ⟨rfl, hrep, trivial⟩
  next v tid var l var' l' hmid h := by
    obtain ⟨tid', pc⟩ := l
    obtain ⟨rfl, rfl, htmp⟩ := hmid
    cases pc with
    | load =>
      cases h
      exact ⟨rfl, rfl, rfl⟩
    | modify tmp =>
      cases h
      exact ⟨rfl, rfl, congrArg (· + delta tid') htmp⟩
    | store tmp => cases h
  done v tid var l var' r hmid h := by
    obtain ⟨tid', pc⟩ := l
    obtain ⟨rfl, rfl, htmp⟩ := hmid
    cases pc with
    | load => cases h
    | modify tmp => cases h
    | store tmp =>
      cases h
      exact ⟨rfl, htmp⟩

/-- What holds whenever: the rounds that are done make up the counter, each thread is in its own
round, and `main` prints only behind both threads. -/
structure Sound (s : System) : Prop where
  inv : Section.Inv spin round counter Rep Mid s.shared
  total : Section.after counter s.shared.history = 9527 + s.i .fool0 - s.i .fool1
  own : ∀ tid c, s.shared.client tid = some c → c.call = tid ∧ s.i tid < CNT
  le : ∀ tid, s.i tid ≤ CNT
  joined0 : s.main = .join1 ∨ s.main = .print → s.finished .fool0 = true
  joined1 : s.main = .print → s.finished .fool1 = true
  out : s.out = if s.main = .returned then [9527] else []

theorem finished_iff {s : System} {tid : Tid} :
    s.finished tid = true ↔ s.shared.client tid = none ∧ s.i tid = CNT := by
  simp [System.finished]

/-- A thread that has returned stays as it is. -/
theorem runThread_finished {s : System} {tid : Tid} (h : s.finished tid = true) :
    s.runThread tid = s := by
  obtain ⟨hc, hi⟩ := finished_iff.mp h
  simp [System.runThread, hc, hi]

/-- What a thread that has not returned does in one step: it begins a round, goes on in it, or
ends it. -/
inductive ThreadStep (s : System) (tid : Tid) (s' : System) : Prop where
  | begun (idle : s.shared.client tid = none) (lt : s.i tid < CNT)
      (shared : s'.shared = Section.step spin round s.shared (.invoke tid tid)) (i : s'.i = s.i)
  | kept (c c' : Client Tid Local Unit) (was : s.shared.client tid = some c)
      (call : c'.call = c.call)
      (client : s'.shared.client = Function.update s.shared.client tid (some c'))
      (history : s'.shared.history = s.shared.history) (i : s'.i = s.i)
  | ended (c : Client Tid Local Unit) (was : s.shared.client tid = some c)
      (client : s'.shared.client = Function.update s.shared.client tid none)
      (history : s'.shared.history = s.shared.history ++ [.respond c.id c.call ()])
      (i : s'.i = Function.update s.i tid (s.i tid + 1))

theorem runThread_cases (s : System) (tid : Tid) :
    s.runThread tid = s ∨ ThreadStep s tid (s.runThread tid) := by
  cases hc : s.shared.client tid with
  | none =>
    simp only [System.runThread, hc]
    split
    case isTrue hlt => exact Or.inr (.begun hc hlt rfl rfl)
    case isFalse => exact Or.inl rfl
  | some c =>
    simp only [System.runThread, hc]
    have hstep : Section.step spin round s.shared (.run tid) =
        Section.advance spin round s.shared tid c := by simp only [Section.step, hc]
    rw [hstep]
    right
    rcases Section.advance_cases (G := spin) (S := round) hc with
      ⟨c', hcall, hclient, hhist⟩ | ⟨r, hclient, hhist⟩
    · refine .kept c c' hc hcall hclient hhist ?_
      simp [hclient]
    · refine .ended c hc hclient hhist ?_
      simp [hclient]

theorem runThread_frame (s : System) (tid : Tid) :
    (s.runThread tid).main = s.main ∧ (s.runThread tid).out = s.out := by
  unfold System.runThread
  split
  · split
    · exact ⟨rfl, rfl⟩
    · exact ⟨rfl, rfl⟩
  · exact ⟨rfl, rfl⟩

theorem step_begun {s : System} {tid : Tid} (hc : s.shared.client tid = none) :
    Section.step spin round s.shared (.invoke tid tid) = Section.goto
      { s.shared with
        history := s.shared.history ++ [.invoke s.shared.nextId tid]
        nextId := s.shared.nextId + 1 }
      tid ⟨s.shared.nextId, tid, .enter⟩ := by
  simp only [Section.step, hc]

theorem finished_runThread {s : System} {tid : Tid} (t : Tid) (h : s.finished tid = true) :
    (s.runThread t).finished tid = true := by
  by_cases ht : tid = t
  · subst ht
    rw [runThread_finished h]
    exact h
  · obtain ⟨hc, hi⟩ := finished_iff.mp h
    rcases runThread_cases s t with heq | hstep
    · rw [heq]
      exact h
    · rw [finished_iff]
      cases hstep with
      | begun idle lt shared i =>
        rw [shared, step_begun idle, i]
        exact ⟨by simpa [Section.goto, ht] using hc, hi⟩
      | kept c c' was call client history i =>
        rw [client, i, Function.update_of_ne ht]
        exact ⟨hc, hi⟩
      | ended c was client history i =>
        rw [client, i, Function.update_of_ne ht, Function.update_of_ne ht]
        exact ⟨hc, hi⟩

theorem shared_inv {s : System} (h : Section.Inv spin round counter Rep Mid s.shared) (tid : Tid) :
    Section.Inv spin round counter Rep Mid (s.runThread tid).shared := by
  have hinvoke := Section.step_inv round_simulates h (.invoke tid tid)
  have hrun := Section.step_inv round_simulates h (.run tid)
  unfold System.runThread
  split
  · split
    · exact hinvoke
    · exact h
  · exact hrun

theorem runThread_sound {s : System} (h : Sound s) (tid : Tid) : Sound (s.runThread tid) := by
  obtain ⟨hmain, hout⟩ := runThread_frame s tid
  rcases runThread_cases s tid with heq | hstep
  · rw [heq]
    exact h
  refine ⟨shared_inv h.inv tid, ?_, ?_, ?_, ?_, ?_, ?_⟩
  · cases hstep with
    | begun idle lt shared i =>
      rw [shared, step_begun idle, i]
      exact (Section.after_invoke _ _ _).trans h.total
    | kept c c' was call client history i =>
      rw [history, i]
      exact h.total
    | ended c was client history i =>
      rw [history, i, Section.after_respond, h.total, (h.own tid c was).1]
      cases tid with
      | fool0 => simp [counter, delta]; omega
      | fool1 => simp [counter, delta]; omega
  · intro t c ht
    cases hstep with
    | begun idle lt shared i =>
      rw [shared, step_begun idle] at ht
      rw [i]
      rcases update_eq_some ht with ⟨rfl, hc⟩ | ⟨-, hc⟩
      · cases hc
        exact ⟨rfl, lt⟩
      · exact h.own t c hc
    | kept d c' was call client history i =>
      rw [client] at ht
      rw [i]
      rcases update_eq_some ht with ⟨rfl, hc⟩ | ⟨-, hc⟩
      · cases hc
        rw [call]
        exact h.own t d was
      · exact h.own t c hc
    | ended d was client history i =>
      rw [client] at ht
      rcases update_eq_some ht with ⟨-, hc⟩ | ⟨hne, hc⟩
      · cases hc
      · rw [i, Function.update_of_ne hne]
        exact h.own t c hc
  · intro t
    cases hstep with
    | begun idle lt shared i => rw [i]; exact h.le t
    | kept c c' was call client history i => rw [i]; exact h.le t
    | ended c was client history i =>
      rw [i]
      by_cases ht : t = tid
      · subst ht
        rw [Function.update_self]
        exact (h.own t c was).2
      · rw [Function.update_of_ne ht]
        exact h.le t
  · rw [hmain]
    exact fun hm => finished_runThread tid (h.joined0 hm)
  · rw [hmain]
    exact fun hm => finished_runThread tid (h.joined1 hm)
  · rw [hmain, hout]
    exact h.out

/-- Behind both threads the variable is what it was at first. -/
theorem restored {s : System} (h : Sound s) (h0 : s.finished .fool0 = true)
    (h1 : s.finished .fool1 = true) : s.shared.data = 9527 := by
  obtain ⟨hc0, hi0⟩ := finished_iff.mp h0
  obtain ⟨hc1, hi1⟩ := finished_iff.mp h1
  have hnone (tid : Tid) : s.shared.client tid = none := by cases tid <;> assumption
  have hfree : s.shared.lock = spin.free := h.inv.free_iff.mpr fun tid c hc => by
    rw [hnone tid] at hc
    cases hc
  have hrep : s.shared.data = Section.after counter s.shared.history := h.inv.rep_of_free hfree
  rw [hrep, h.total, hi0, hi1]
  decide

theorem runMain_sound {s : System} (h : Sound s) (created : Bool) : Sound (s.runMain created) := by
  have hmove (main : MainPc) (h0 : main = .join1 ∨ main = .print → s.finished .fool0 = true)
      (h1 : main = .print → s.finished .fool1 = true) (hne : main ≠ .returned)
      (hwas : s.main ≠ .returned) : Sound { s with main } := by
    refine ⟨h.inv, h.total, h.own, h.le, h0, h1, ?_⟩
    rw [if_neg hne, h.out, if_neg hwas]
  cases hm : s.main with
  | create0 =>
    simp only [System.runMain, hm]
    cases created
    · exact hmove .exited (by simp) (by simp) (by simp) (by simp [hm])
    · exact hmove .create1 (by simp) (by simp) (by simp) (by simp [hm])
  | create1 =>
    simp only [System.runMain, hm]
    cases created
    · exact hmove .exited (by simp) (by simp) (by simp) (by simp [hm])
    · exact hmove .join0 (by simp) (by simp) (by simp) (by simp [hm])
  | join0 =>
    simp only [System.runMain, hm]
    split
    case isTrue hfin => exact hmove .join1 (fun _ => hfin) (by simp) (by simp) (by simp [hm])
    case isFalse => exact h
  | join1 =>
    simp only [System.runMain, hm]
    split
    case isTrue hfin =>
      exact hmove .print (fun _ => h.joined0 (Or.inl hm)) (fun _ => hfin) (by simp) (by simp [hm])
    case isFalse => exact h
  | print =>
    simp only [System.runMain, hm]
    have hdata := restored h (h.joined0 (Or.inr hm)) (h.joined1 hm)
    refine ⟨h.inv, h.total, h.own, h.le, by simp, by simp, ?_⟩
    rw [h.out, hdata]
    simp [hm]
  | returned =>
    simp only [System.runMain, hm]
    exact h
  | exited =>
    simp only [System.runMain, hm]
    exact h

theorem step_sound {s : System} (h : Sound s) (a : Act) : Sound (s.step a) := by
  cases a with
  | thread tid =>
    simp only [System.step]
    split
    · exact runThread_sound h tid
    · exact h
  | main created => exact runMain_sound h created

theorem init_sound : Sound machine.init where
  inv := Section.run_inv (P := Tid) round_simulates spin []
  total := rfl
  own := nofun
  le _ := Nat.zero_le _
  joined0 := by simp [machine]
  joined1 := by simp [machine]
  out := by simp [machine]

/-- The counter never leaves the range of an `int`. -/
theorem Sound.in_range {s : System} (h : Sound s) :
    -INT_MAX ≤ s.shared.data ∧ s.shared.data ≤ INT_MAX := by
  have h0 := h.le .fool0
  have h1 := h.le .fool1
  have hnear (tid : Tid) (d : Int) (hlt : s.i tid < CNT)
      (hd : d = Section.after counter s.shared.history + delta tid) :
      -INT_MAX ≤ d ∧ d ≤ INT_MAX := by
    rw [h.total] at hd
    unfold CNT at h0 h1 hlt
    unfold INT_MAX
    cases tid with
    | fool0 => simp only [delta] at hd; omega
    | fool1 => simp only [delta] at hd; omega
  have hat (d : Int) (hd : d = Section.after counter s.shared.history) :
      -INT_MAX ≤ d ∧ d ≤ INT_MAX := by
    rw [h.total] at hd
    unfold CNT at h0 h1
    unfold INT_MAX
    omega
  cases h.inv.owned with
  | inl hfree => exact hat _ hfree.2.1
  | inr hheld =>
    obtain ⟨-, tid, c, hc, hcrit, hprog, -⟩ := hheld
    obtain ⟨hcall, hlt⟩ := h.own tid c hc
    unfold Section.Progress at hprog
    cases hstage : c.stage with
    | enter => simp [Client.critical, hstage] at hcrit
    | lock l => simp [Client.critical, hstage] at hcrit
    | inside l =>
      rw [hstage] at hprog
      exact hat _ hprog.kept
    | unlock r =>
      rw [hstage] at hprog
      exact hnear tid _ hlt (hcall ▸ hprog.2)

/-- The steps of its round that a thread has behind it, of seven. -/
def behind : Option (Client Tid Local Unit) → Nat
  | none => 0
  | some c =>
    match c.stage with
    | .enter => 1
    | .lock _ => 2
    | .inside l =>
      match l.pc with
      | .load => 3
      | .modify _ => 4
      | .store _ => 5
    | .unlock _ => 6

theorem behind_lt (v : Option (Client Tid Local Unit)) : behind v < 7 := by
  unfold behind
  split
  · decide
  · split
    · decide
    · decide
    · split <;> decide
    · decide

/-- The steps a thread has before it, if nobody keeps it waiting. -/
def System.left (s : System) (tid : Tid) : Nat :=
  7 * (CNT - s.i tid) - behind (s.shared.client tid)

theorem left_lt {s : System} {tid : Tid} {c d : Client Tid Local Unit}
    (hc : s.shared.client tid = some c) (hlt : s.i tid < CNT)
    (hnext : (Section.step spin round s.shared (.run tid)).client tid = some d)
    (hb : behind (some c) < behind (some d)) : (s.runThread tid).left tid < s.left tid := by
  have hb' := behind_lt (some d)
  simp only [System.left, System.runThread, hc, hnext, Option.isNone_some, Bool.false_eq_true,
    if_false]
  omega

/-- A thread that is not kept waiting comes nearer to its end. -/
theorem runThread_left {s : System} (h : Sound s) {tid : Tid} (hunfin : s.finished tid = false)
    (hready : ∀ c l, s.shared.client tid = some c → c.stage = .lock l →
      s.shared.lock = spin.free) :
    (s.runThread tid).left tid < s.left tid := by
  have hle := h.le tid
  cases hc : s.shared.client tid with
  | none =>
    have hne : s.i tid ≠ CNT := by
      intro hi
      rw [finished_iff.mpr ⟨hc, hi⟩] at hunfin
      cases hunfin
    have hlt : s.i tid < CNT := by omega
    simp only [System.runThread, hc, if_pos hlt, System.left, step_begun hc, Section.goto,
      Function.update_self, behind]
    omega
  | some c =>
    have hlt := (h.own tid c hc).2
    cases hstage : c.stage with
    | enter =>
      apply left_lt (d := { c with stage := .lock ⟨c.call, .load⟩ }) hc hlt
      · simp [Section.step, hc, Section.advance, hstage, round, Section.goto]
      · simp [behind, hstage]
    | lock l =>
      apply left_lt (d := { c with stage := .inside l }) hc hlt
      · simp [Section.step, hc, Section.advance, hstage, hready c l hc hstage, spin.acquire_free,
          Section.goto]
      · cases hpc : l.pc <;> simp [behind, hstage, hpc]
    | inside l =>
      cases hpc : l.pc with
      | load =>
        apply left_lt (d := { c with stage := .inside ⟨l.tid, .modify s.shared.data⟩ }) hc hlt
        · simp [Section.step, hc, Section.advance, hstage, round, hpc, Section.goto]
        · simp [behind, hstage, hpc]
      | modify tmp =>
        apply left_lt (d := { c with stage := .inside ⟨l.tid, .store (tmp + delta l.tid)⟩ }) hc hlt
        · simp [Section.step, hc, Section.advance, hstage, round, hpc, Section.goto]
        · simp [behind, hstage, hpc]
      | store tmp =>
        apply left_lt (d := { c with stage := .unlock () }) hc hlt
        · simp [Section.step, hc, Section.advance, hstage, round, hpc, Section.goto]
        · simp [behind, hstage, hpc]
    | unlock r =>
      -- the next round begins
      have hnext : (Section.step spin round s.shared (.run tid)).client tid = none := by
        simp [Section.step, hc, Section.advance, hstage, Section.leave]
      simp only [System.left, System.runThread, hc, hnext, Option.isNone_none, if_true,
        Function.update_self, behind, hstage]
      omega

theorem runThread_left_of_ne (s : System) {tid t : Tid} (ht : t ≠ tid) :
    (s.runThread tid).left t = s.left t := by
  unfold System.left
  rcases runThread_cases s tid with heq | hstep
  · rw [heq]
  · cases hstep with
    | begun idle lt shared i =>
      rw [shared, step_begun idle, i]
      simp [Section.goto, ht]
    | kept c c' was call client history i =>
      rw [client, i, Function.update_of_ne ht]
    | ended c was client history i =>
      rw [client, i, Function.update_of_ne ht, Function.update_of_ne ht]

/-- One of the threads is not kept waiting: the one behind the lock, or any of them. -/
theorem some_ready {s : System} (h : Sound s) {tid : Tid} (hunfin : s.finished tid = false) :
    ∃ t, s.finished t = false ∧ ∀ c l, s.shared.client t = some c → c.stage = .lock l →
      s.shared.lock = spin.free := by
  cases h.inv.owned with
  | inl hfree => exact ⟨tid, hunfin, fun _ _ _ _ => hfree.1⟩
  | inr hheld =>
    obtain ⟨-, t, c, hc, hcrit, -⟩ := hheld
    refine ⟨t, ?_, ?_⟩
    · simp [System.finished, hc]
    · intro c' l hc' hstage
      obtain rfl := Option.some.inj (hc.symm.trans hc')
      simp [Client.critical, hstage] at hcrit

theorem threads_finish {s : System} (h : Sound s) (hstarted : ∀ tid, s.main.started tid = true) :
    ∃ more : List Act, (machine.runFrom s more).main = s.main ∧
      (machine.runFrom s more).out = s.out ∧ Sound (machine.runFrom s more) ∧
      ∀ tid, (machine.runFrom s more).finished tid = true := by
  -- the steps before both threads together go down
  induction hn : s.left .fool0 + s.left .fool1 using Nat.strongRecOn generalizing s with
  | ind n ih =>
    by_cases hall : ∀ tid, s.finished tid = true
    · exact ⟨[], rfl, rfl, h, hall⟩
    · rw [not_forall] at hall
      obtain ⟨tid, hunfin⟩ := hall
      obtain ⟨t, ht, hready⟩ := some_ready h (by simpa using hunfin)
      have hless := runThread_left h ht hready
      have hsum : (s.runThread t).left .fool0 + (s.runThread t).left .fool1 < n := by
        cases t with
        | fool0 => rw [runThread_left_of_ne s (t := .fool1) (by decide)]; omega
        | fool1 => rw [runThread_left_of_ne s (t := .fool0) (by decide)]; omega
      obtain ⟨hmain, hout⟩ := runThread_frame s t
      obtain ⟨more, hm, ho, hsound, hfin⟩ :=
        ih _ hsum (runThread_sound h t) (fun tid => hmain ▸ hstarted tid) rfl
      have hstep : s.step (.thread t) = s.runThread t := if_pos (hstarted t)
      refine ⟨.thread t :: more, ?_⟩
      rw [Machine.runFrom_cons, show machine.step s (.thread t) = s.runThread t from hstep]
      exact ⟨hm.trans hmain, ho.trans hout, hsound, hfin⟩

/-- From behind the second `pthread_create` the process can get to its `printf`. -/
theorem joins_print {s : System} (h : Sound s)
    (hm : s.main = .join0 ∨ s.main = .join1 ∨ s.main = .print) :
    ∃ more : List Act, (machine.runFrom s more).main = .returned := by
  have hstarted (tid : Tid) : s.main.started tid = true := by
    rcases hm with hm | hm | hm <;> rw [hm] <;> rfl
  obtain ⟨more, hmain, -, -, hfin⟩ := threads_finish h hstarted
  have hlast (t : System) (ht : t.main = .print) : (t.step (.main true)).main = .returned := by
    simp [System.step, System.runMain, ht]
  have hjoin1 (t : System) (ht : t.main = .join1) (hf : t.finished .fool1 = true) :
      (t.step (.main true)).main = .print := by
    simp [System.step, System.runMain, ht, hf]
  have hjoin0 (t : System) (ht : t.main = .join0) (hf : t.finished .fool0 = true) :
      t.step (.main true) = { t with main := .join1 } := by
    simp [System.step, System.runMain, ht, hf]
  generalize hs' : machine.runFrom s more = s' at hmain hfin
  rcases hm with hm | hm | hm
  · refine ⟨more ++ [.main true, .main true, .main true], ?_⟩
    rw [Machine.runFrom_append, hs']
    refine hlast _ (hjoin1 _ ?_ ?_)
    · exact congrArg System.main (hjoin0 s' (hmain.trans hm) (hfin .fool0))
    · rw [show machine.step s' (.main true) = _ from hjoin0 s' (hmain.trans hm) (hfin .fool0)]
      exact hfin .fool1
  · refine ⟨more ++ [.main true, .main true], ?_⟩
    rw [Machine.runFrom_append, hs']
    exact hlast _ (hjoin1 _ (hmain.trans hm) (hfin .fool1))
  · refine ⟨more ++ [.main true], ?_⟩
    rw [Machine.runFrom_append, hs']
    exact hlast _ (hmain.trans hm)

theorem can_print {s : System} (h : Sound s) (hm : s.main ≠ .exited) :
    ∃ more : List Act, (machine.runFrom s more).main = .returned := by
  have hcreate1 {t : System} (ht : Sound t) (hmt : t.main = .create1) :
      ∃ more : List Act, (machine.runFrom t more).main = .returned := by
    have hnext : (t.step (.main true)).main = .join0 := by
      simp [System.step, System.runMain, hmt]
    obtain ⟨more, hmore⟩ := joins_print (step_sound ht (.main true)) (Or.inl hnext)
    exact ⟨.main true :: more, hmore⟩
  cases hmain : s.main with
  | create0 =>
    have hnext : (s.step (.main true)).main = .create1 := by
      simp [System.step, System.runMain, hmain]
    obtain ⟨more, hmore⟩ := hcreate1 (step_sound h (.main true)) hnext
    exact ⟨.main true :: more, hmore⟩
  | create1 => exact hcreate1 h hmain
  | join0 => exact joins_print h (Or.inl hmain)
  | join1 => exact joins_print h (Or.inr (Or.inl hmain))
  | print => exact joins_print h (Or.inr (Or.inr hmain))
  | returned => exact ⟨[], hmain⟩
  | exited => exact absurd hmain hm

/-- What the spin lock guarantees to the process: one thread at a time changes the variable, it
stays an `int`, what is printed is its first value, and the `printf` can be got to unless
`pthread_create` has failed. -/
structure Restores (s : System) : Prop where
  exclusive : ∀ p q c d, s.shared.client p = some c → s.shared.client q = some d →
    c.critical = true → d.critical = true → p = q
  in_range : -INT_MAX ≤ s.shared.data ∧ s.shared.data ≤ INT_MAX
  prints : s.out = if s.main = .returned then [9527] else []
  returns : s.main ≠ .exited → ∃ more : List Act, (machine.runFrom s more).main = .returned

/-- However the two threads and `main` take turns, no update is lost. -/
theorem no_update_lost (acts : List Act) : Restores (machine.run acts) := by
  have h : Sound (machine.run acts) :=
    machine.run_invariant init_sound (fun _ a h => step_sound h a) acts
  exact ⟨fun p q c d hp hq hc hd => h.inv.exclusive hp hq hc hd, h.in_range, h.out, can_print h⟩

end KernelDrivers.LockDemo.Threads
