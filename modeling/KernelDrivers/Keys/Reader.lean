import KernelDrivers.Framework.Machine
import KernelDrivers.Keys.Device

namespace KernelDrivers.Keys

open Framework Kernel

/-- How far the reader is in `key_read`: it waits for the mark, copies `kbuf`, and with the
copy handed out clears the mark. -/
inductive ReaderPc where
  | idle
  | wait
  | copy
  | clear (snap : Key → Byte)

/-- The device with its one reader. `last` is the snapshot of the last successful read, or
the initial `kbuf`; `since` counts the events after that read, and `returned` keeps the
value of each read with the events it had seen. -/
structure Reader where
  dev : KeyDev
  pc : ReaderPc
  last : Key → Byte
  since : Nat
  returned : List (Int × Nat)

inductive ReaderStep where
  | read (cnt : Nat)
  | run (fate : CopyFate)
  | signal
  | event (key : Key)

namespace Reader

def start (drv : Driver) : Reader := ⟨drv.fresh, .idle, drv.fresh.kbuf, 0, []⟩

/-- The read ends with `ret`. -/
def leave (s : Reader) (ret : Int) : Reader :=
  { s with pc := .idle, returned := s.returned ++ [(ret, s.since)] }

/-- One step of `key_read`. -/
def keyRead (drv : Driver) (s : Reader) (fate : CopyFate) : Reader :=
  match s.pc with
  | .idle => s
  | .wait => if drv.awake s.dev.flag then { s with pc := .copy } else s
  | .copy => if fate.residue 4 ≠ 0 then s.leave (-einval) else { s with pc := .clear s.dev.kbuf }
  | .clear snap => { s.leave 4 with dev := { s.dev with flag := 0 }, last := snap, since := 0 }

def step (drv : Driver) (s : Reader) : ReaderStep → Reader
  | .read cnt =>
    match s.pc with
    | .idle => if cnt ≠ 4 then s.leave (-einval) else { s with pc := .wait }
    | _ => s
  | .run fate => s.keyRead drv fate
  | .signal =>
    -- `wait_event_interruptible` returns an error here, which `key_read` drops
    match s.pc with
    | .wait => { s with pc := .copy }
    | _ => s
  | .event key => { s with dev := drv.event s.dev key, since := s.since + 1 }

def machine (drv : Driver) : Machine Reader ReaderStep := ⟨start drv, step drv⟩

/-- The reader is blocked waiting with the mark clear. -/
def Blocked (drv : Driver) (s : Reader) : Prop := s.pc = .wait ∧ drv.awake s.dev.flag = false

/-- No event is lost to a blocked reader. -/
def Informed (drv : Driver) (s : Reader) : Prop := s.Blocked drv → s.last = s.dev.kbuf

/-- Every read that returns 4 has seen an event. -/
def Warranted (s : Reader) : Prop := ∀ e ∈ s.returned, e.1 = 4 → 1 ≤ e.2

/-- The mark is cleared only when it is set and `kbuf` is still what was copied. -/
def ClearsSeen (drv : Driver) (s : Reader) : ReaderStep → Prop
  | .run _ => ∀ snap, s.pc = .clear snap → drv.awake s.dev.flag = true ∧ s.dev.kbuf = snap
  | _ => True

/-- The mark is set exactly when an event has come since the last successful read. -/
def Marked (s : Reader) : Prop := s.dev.flag = if s.since = 0 then 0 else 1

variable {drv : Driver}

theorem Marked.awake_iff {s : Reader} (h : s.Marked) (drv : Driver) :
    drv.awake s.dev.flag = true ↔ 1 ≤ s.since := by
  rw [h]
  by_cases h0 : s.since = 0
  · simp [h0, drv.awake_clear]
  · simp [h0, drv.awake_set]
    omega

/-- What a step that neither clears the mark nor is an event leaves alone; it may end a
read with an error. -/
structure Silent (s s' : Reader) : Prop where
  dev : s'.dev = s.dev
  last : s'.last = s.last
  since : s'.since = s.since
  returned : s'.returned = s.returned ∨ s'.returned = s.returned ++ [(-einval, s.since)]

theorem silent_refl (s : Reader) : s.Silent s := ⟨rfl, rfl, rfl, Or.inl rfl⟩

theorem silent_leave (s : Reader) : s.Silent (s.leave (-einval)) := ⟨rfl, rfl, rfl, Or.inr rfl⟩

theorem silent_pc (s : Reader) (pc : ReaderPc) : s.Silent { s with pc } :=
  ⟨rfl, rfl, rfl, Or.inl rfl⟩

/-- The three things a step can be. -/
theorem step_cases (drv : Driver) (s : Reader) (a : ReaderStep) :
    (∃ key, a = .event key ∧
      s.step drv a = { s with dev := drv.event s.dev key, since := s.since + 1 }) ∨
    (∃ fate snap, a = .run fate ∧ s.pc = .clear snap ∧ s.step drv a =
      { s.leave 4 with dev := { s.dev with flag := 0 }, last := snap, since := 0 }) ∨
    s.Silent (s.step drv a) := by
  cases a with
  | event key => exact Or.inl ⟨key, rfl, rfl⟩
  | read cnt =>
    right; right
    cases hpc : s.pc with
    | idle =>
      simp only [step, hpc]
      by_cases hcnt : cnt ≠ 4
      · rw [if_pos hcnt]
        exact silent_leave s
      · rw [if_neg hcnt]
        exact silent_pc s .wait
    | wait => simpa only [step, hpc] using silent_refl s
    | copy => simpa only [step, hpc] using silent_refl s
    | clear snap => simpa only [step, hpc] using silent_refl s
  | signal =>
    right; right
    cases hpc : s.pc with
    | wait => simpa only [step, hpc] using silent_pc s .copy
    | idle => simpa only [step, hpc] using silent_refl s
    | copy => simpa only [step, hpc] using silent_refl s
    | clear snap => simpa only [step, hpc] using silent_refl s
  | run fate =>
    cases hpc : s.pc with
    | clear snap =>
      right; left
      refine ⟨fate, snap, rfl, rfl, ?_⟩
      simp only [step, keyRead, hpc]
    | idle =>
      right; right
      simpa only [step, keyRead, hpc] using silent_refl s
    | wait =>
      right; right
      simp only [step, keyRead, hpc]
      by_cases hawake : drv.awake s.dev.flag = true
      · rw [if_pos hawake]
        exact silent_pc s .copy
      · rw [if_neg hawake]
        exact silent_refl s
    | copy =>
      right; right
      simp only [step, keyRead, hpc]
      by_cases hres : fate.residue 4 ≠ 0
      · rw [if_pos hres]
        exact silent_leave s
      · rw [if_neg hres]
        exact silent_pc s _

theorem step_marked (drv : Driver) {s : Reader} (h : s.Marked) (a : ReaderStep) :
    (s.step drv a).Marked := by
  rcases step_cases drv s a with ⟨key, -, hstep⟩ | ⟨fate, snap, -, -, hstep⟩ | hsilent
  · rw [hstep]
    simp [Marked, Driver.event]
  · rw [hstep]
    rfl
  · rw [Marked, hsilent.dev, hsilent.since]
    exact h

/-- While the mark is clear the last snapshot is current, and every successful read has
seen an event. -/
structure Current (s : Reader) : Prop where
  marked : s.Marked
  fresh : s.since = 0 → s.last = s.dev.kbuf
  warranted : s.Warranted

theorem start_current : (start drv).Current :=
  ⟨rfl, fun _ => rfl, fun _ h => absurd h (List.not_mem_nil)⟩

theorem warranted_concat {s s' : Reader} (h : s.Warranted) {e : Int × Nat}
    (hs : s'.returned = s.returned ++ [e]) (he : e.1 = 4 → 1 ≤ e.2) : s'.Warranted := by
  intro d hd
  rw [hs, List.mem_append, List.mem_singleton] at hd
  cases hd with
  | inl hd => exact h d hd
  | inr hd =>
    rw [hd]
    exact he

theorem step_current {s : Reader} (h : s.Current) {a : ReaderStep} (hc : s.ClearsSeen drv a) :
    (s.step drv a).Current := by
  have hmarked := step_marked drv h.marked a
  rcases step_cases drv s a with ⟨key, -, hstep⟩ | ⟨fate, snap, ha, hpc, hstep⟩ | hsilent
  · rw [hstep] at hmarked ⊢
    exact ⟨hmarked, fun h0 => absurd h0 (Nat.succ_ne_zero _), h.warranted⟩
  · -- the copy handed out is still what `kbuf` holds
    subst ha
    obtain ⟨hset, hsame⟩ := hc snap hpc
    have hseen := (h.marked.awake_iff drv).mp hset
    rw [hstep] at hmarked ⊢
    exact ⟨hmarked, fun _ => hsame.symm, warranted_concat h.warranted rfl fun _ => hseen⟩
  · refine ⟨hmarked, fun h0 => ?_, ?_⟩
    · rw [hsilent.last, hsilent.dev]
      exact h.fresh (hsilent.since.symm.trans h0)
    · cases hsilent.returned with
      | inl hr =>
        intro e he
        exact h.warranted e (hr ▸ he)
      | inr hr =>
        have hneg : -einval ≠ 4 := by decide
        exact warranted_concat h.warranted hr fun h4 => absurd h4 hneg

theorem Current.informed {s : Reader} (h : s.Current) : s.Informed drv := by
  intro hb
  apply h.fresh
  by_contra hpos
  have hset := (h.marked.awake_iff drv).mpr (by omega)
  exact absurd (hset.symm.trans hb.2) (by decide)

/-- In a run that clears the mark only when it is set and `kbuf` is still what was copied,
no event is lost to a blocked reader and no read succeeds without an event; and whenever
the mark is about to be cleared this is what it takes for the next read to block with the
current states and for this one to have seen an event. -/
theorem reader_notified (drv : Driver) (steps : List ReaderStep) :
    ((machine drv).Meets (ClearsSeen drv) steps →
      ((machine drv).run steps).Informed drv ∧ ((machine drv).run steps).Warranted) ∧
    ∀ snap fate, ((machine drv).run steps).pc = .clear snap →
      let s := (machine drv).run steps
      let s' := (machine drv).run (steps ++ [.run fate, .read 4])
      s'.Blocked drv ∧
        ((s'.last = s'.dev.kbuf ∧ ∃ n, 1 ≤ n ∧ s'.returned = s.returned ++ [(4, n)]) ↔
          s.ClearsSeen drv (.run fate)) := by
  constructor
  · intro hmeets
    have hcurrent : ((machine drv).run steps).Current :=
      Machine.run_invariant_of_meets (I := Current) start_current
        (fun _ _ hc h => step_current h hc) hmeets
    exact ⟨hcurrent.informed, hcurrent.warranted⟩
  · intro snap fate hpc s s'
    have hmarked : s.Marked := (machine drv).run_invariant (I := Marked) rfl
      (fun _ a h => step_marked drv h a) steps
    have hend : s' = { s with
        dev := { s.dev with flag := 0 }, pc := .wait, last := snap, since := 0,
        returned := s.returned ++ [(4, s.since)] } := by
      have hcleared : (machine drv).run (steps ++ [.run fate]) =
          { s.leave 4 with dev := { s.dev with flag := 0 }, last := snap, since := 0 } := by
        have hrun : s.keyRead drv fate =
            { s.leave 4 with dev := { s.dev with flag := 0 }, last := snap, since := 0 } := by
          simp only [keyRead, s, hpc]
        rw [Machine.run_concat]
        exact hrun
      have happend : steps ++ [.run fate, .read 4] = (steps ++ [.run fate]) ++ [.read 4] := by simp
      have hs' : s' = (machine drv).run ((steps ++ [.run fate]) ++ [.read 4]) := by rw [← happend]
      rw [hs', Machine.run_concat, hcleared]
      rfl
    have hblocked : s'.Blocked drv := by
      rw [hend]
      exact ⟨rfl, drv.awake_clear⟩
    refine ⟨hblocked, ?_⟩
    rw [hend]
    have hseen := hmarked.awake_iff drv
    constructor
    · intro h
      obtain ⟨hlast, n, hn, hret⟩ := h
      have hsince : s.since = n := by
        have hone := List.append_cancel_left hret
        exact congrArg Prod.snd (List.singleton_inj.mp hone)
      intro snap' hpc'
      obtain rfl := ReaderPc.clear.inj (hpc.symm.trans hpc')
      exact ⟨hseen.mpr (by omega), hlast.symm⟩
    · intro hc
      obtain ⟨hset, hsame⟩ := hc snap hpc
      exact ⟨hsame.symm, s.since, hseen.mp hset, rfl⟩

/-- An event between the copy and the clearing of the mark is lost to a reader that blocks
afterwards, and a read whose wait a signal ends returns 4 without any event. -/
theorem reader_misses_event_and_reports_none :
    ¬ ((machine keys).run [.event 0, .read 4, .run .success, .run .success, .event 1,
        .run .success, .read 4]).Informed keys ∧
      ¬ ((machine keys).run [.read 4, .signal, .run .success, .run .success]).Warranted := by
  constructor
  · intro h
    have hlast := h ⟨rfl, by decide⟩
    exact absurd (congrFun hlast 1) (by decide)
  · intro h
    have hseen := h (4, 0) (by decide) rfl
    exact absurd hseen (by decide)

end Reader

end KernelDrivers.Keys
