import Mathlib.Data.Fintype.Basic
import KernelDrivers.Framework.Machine
import KernelDrivers.Kbufdrv.Steps

namespace KernelDrivers.Kbufdrv.Unlocked

open Framework Kernel

/-- A process inside `kbuf_read` or `kbuf_write`. -/
structure Proc where
  pc : BodyPc
  fr : Frame

/-- A device, the processes that have it open, and the calls that have returned. `fault` is
set when an access leaves the buffer. -/
structure State (P : Type*) where
  dev : Kbuf
  proc : P → Option Proc
  log : List (Op × Resp)
  fault : Bool

inductive Act (P : Type*) where
  | invoke (p : P) (call : Call)
  | run (p : P) (env : Env)

variable {P : Type*} [DecidableEq P]

namespace State

def goto (s : State P) (p : P) (dev : Kbuf) (x : Proc) : State P :=
  { s with dev, proc := Function.update s.proc p (some x) }

def leave (s : State P) (p : P) (dev : Kbuf) (e : Op × Resp) : State P :=
  { s with dev, proc := Function.update s.proc p none, log := s.log ++ [e] }

/-- The bytes of the successful writes and reads so far. -/
def accepted (s : State P) : List Byte := s.log.flatMap acceptedBy

def delivered (s : State P) : List Byte := s.log.flatMap deliveredBy

end State

def start : State P := ⟨.fresh, fun _ => none, [], false⟩

/-- The state after process `p`, so far at `x`, has made a step of its body; `failed` says whether
its copy has failed in it. -/
def State.after (s : State P) (p : P) (x : Proc) (failed : Bool) : Move → State P
  | .stay => s
  | .next pc dev fr => s.goto p dev ⟨pc, fr⟩
  | .error dev ret => s.leave p dev (⟨x.fr.call, failed⟩, ⟨ret, []⟩)
  | .done dev fr => s.leave p dev (⟨fr.call, failed⟩, ⟨fr.cnt, fr.out⟩)
  | .fault => { s with fault := true }

def step (guard : Guard) (s : State P) : Act P → State P
  | .invoke p call =>
    match s.proc p with
    | some _ => s
    | none =>
      if call.cnt = 0 then s.leave p s.dev (⟨call, false⟩, ⟨0, []⟩)
      else s.goto p s.dev ⟨.test, .enter call⟩
  | .run p env =>
    match s.proc p with
    | none => s
    | some x => s.after p x (copyFails x.pc x.fr env.fate) (bodyStep guard env x.pc s.dev x.fr)

/-- The drivers without a lock: `kbufchardrv_poll` waits, `locks/kbufchardrv` refuses. -/
def machine (guard : Guard) (P : Type*) [DecidableEq P] : Machine (State P) (Act P) :=
  ⟨start, step guard⟩

/-- A read that has moved the buffer down and has still to lower `validlen`. -/
def Proc.Shifted (x : Proc) : Prop := x.pc = .update ∧ x.fr.call.isRead = true

/-- No `size_t` subtraction wraps, no access leaves the buffer, and while no read is between
its `memmove` and its update the bytes delivered and the bytes left are those accepted. -/
structure Safe (s : State P) : Prop where
  inBounds : s.fault = false
  validlen : s.dev.validlen ≤ SZ_512
  reads : ∀ p x, s.proc p = some x → x.pc = .memmove ∨ x.pc = .update →
    x.fr.call.isRead = true → x.fr.cnt ≤ s.dev.validlen
  writes : ∀ p x, s.proc p = some x → x.pc = .copy → x.fr.call.isRead = false →
    s.dev.validlen + x.fr.cnt ≤ SZ_512
  conserved : (∀ p x, s.proc p = some x → ¬ x.Shifted) →
    s.delivered ++ s.dev.contents = s.accepted

/-- The step that `x` is about to take spoils what `y` has found, or is spoilt by it: a read
moves the bytes another process has copied or is about to, a write takes the room another
process counts on. -/
def Clash (validlen : Nat) (x y : Proc) : Prop :=
  match x.pc, x.fr.call with
  | .memmove, _ => y.pc = .memmove ∨ y.pc = .update
  | .update, .read _ => y.pc = .memmove ∨ y.pc = .update ∨
      (y.pc = .copy ∧ y.fr.call.isRead = true ∧ validlen < x.fr.cnt + y.fr.cnt)
  | .copy, .write _ => y.pc = .update
  | .update, .write _ => y.pc = .update ∨
      (y.pc = .copy ∧ y.fr.call.isRead = false ∧ SZ_512 < validlen + x.fr.cnt + y.fr.cnt)
  | _, _ => False

/-- A process takes its step while it clashes with no other. -/
def Undisturbed (s : State P) : Act P → Prop
  | .invoke _ _ => True
  | .run p _ => ∀ x ∈ s.proc p, ∀ q, q ≠ p → ∀ y ∈ s.proc q, ¬ Clash s.dev.validlen x y

instance decidableClash (validlen : Nat) (x y : Proc) : Decidable (Clash validlen x y) :=
  match x with
  | ⟨.test, _⟩ => inferInstanceAs (Decidable False)
  | ⟨.min, _⟩ => inferInstanceAs (Decidable False)
  | ⟨.memmove, _⟩ => inferInstanceAs (Decidable (_ ∨ _))
  | ⟨.copy, ⟨.read _, _, _⟩⟩ => inferInstanceAs (Decidable False)
  | ⟨.copy, ⟨.write _, _, _⟩⟩ => inferInstanceAs (Decidable (_ = _))
  | ⟨.update, ⟨.read _, _, _⟩⟩ => inferInstanceAs (Decidable (_ ∨ _ ∨ _ ∧ _ ∧ _))
  | ⟨.update, ⟨.write _, _, _⟩⟩ => inferInstanceAs (Decidable (_ ∨ _ ∧ _ ∧ _))

instance decidableUndisturbed [Fintype P] (s : State P) : (a : Act P) → Decidable (Undisturbed s a)
  | .invoke _ _ => .isTrue trivial
  | .run p _ => inferInstanceAs
      (Decidable (∀ x ∈ s.proc p, ∀ q, q ≠ p → ∀ y ∈ s.proc q, ¬ Clash s.dev.validlen x y))

/-- The `cnt` of a call that has done its `min` is within the stored bytes, or within the
free room. -/
def Fits (dev : Kbuf) (fr : Frame) : Prop :=
  match fr.call with
  | .read _ => fr.cnt ≤ dev.validlen
  | .write _ => dev.validlen + fr.cnt ≤ SZ_512

/-- The bytes of a write are in place behind the stored ones. -/
def Landed (dev : Kbuf) (fr : Frame) : Prop :=
  match fr.call with
  | .read _ => True
  | .write buf => fr.cnt ≤ buf.length ∧ fr.out = [] ∧
      dev.kbuf.slice dev.validlen fr.cnt = buf.take fr.cnt

/-- What a process can rely on as long as nobody clashes with it. -/
def Local (dev : Kbuf) (x : Proc) : Prop :=
  match x.pc with
  | .test | .min => x.fr = .enter x.fr.call
  | .copy => x.fr.out = [] ∧ x.fr.cnt ≤ x.fr.call.cnt ∧ Fits dev x.fr
  | .memmove => x.fr.call.isRead = true ∧ Fits dev x.fr
  | .update => Fits dev x.fr ∧ Landed dev x.fr

structure Inv (s : State P) : Prop where
  safe : s.fault = false
  bounded : s.dev.Bounded
  locals : ∀ p x, s.proc p = some x → Local s.dev x
  single : ∀ p q x y, s.proc p = some x → s.proc q = some y → x.Shifted → y.Shifted → p = q
  shifted : ∀ p x, s.proc p = some x → x.Shifted →
    s.delivered ++ x.fr.out ++ s.dev.kbuf.front (s.dev.validlen - x.fr.cnt) = s.accepted
  settled : (∀ p x, s.proc p = some x → ¬ x.Shifted) →
    s.delivered ++ s.dev.contents = s.accepted ∧
    ∀ p x, s.proc p = some x → x.pc = .memmove → x.fr.out = s.dev.contents.take x.fr.cnt

theorem Fits.read_le {dev : Kbuf} {fr : Frame} (h : Fits dev fr) (hread : fr.call.isRead = true) :
    fr.cnt ≤ dev.validlen := by
  cases hcall : fr.call with
  | read cnt => simpa only [Fits, hcall] using h
  | write buf => simp [hcall, Call.isRead] at hread

theorem Fits.write_le {dev : Kbuf} {fr : Frame} (h : Fits dev fr)
    (hwrite : fr.call.isRead = false) : dev.validlen + fr.cnt ≤ SZ_512 := by
  cases hcall : fr.call with
  | read cnt => simp [hcall, Call.isRead] at hwrite
  | write buf => simpa only [Fits, hcall] using h

theorem Local.memmove_le {dev : Kbuf} {x : Proc} (h : Local dev x) (hpc : x.pc = .memmove) :
    x.fr.cnt ≤ dev.validlen := by
  simp only [Local, hpc] at h
  exact h.2.read_le h.1

omit [DecidableEq P] in
theorem Inv.to_safe {s : State P} (h : Inv s) : Safe s where
  inBounds := h.safe
  validlen := h.bounded
  conserved hnone := (h.settled hnone).1
  reads p x hx hpc hread := by
    have hl := h.locals p x hx
    cases hpc with
    | inl hpc => exact hl.memmove_le hpc
    | inr hpc =>
      simp only [Local, hpc] at hl
      exact hl.1.read_le hread
  writes p x hx hpc hwrite := by
    have hl := h.locals p x hx
    simp only [Local, hpc] at hl
    exact hl.2.2.write_le hwrite

omit [DecidableEq P] in
theorem start_inv : Inv (start : State P) where
  safe := rfl
  bounded := Kbuf.fresh_bounded
  locals _ x h := absurd h.symm (Option.some_ne_none x)
  single _ _ x _ h := absurd h.symm (Option.some_ne_none x)
  shifted _ x h := absurd h.symm (Option.some_ne_none x)
  settled _ := ⟨rfl, fun _ x h => absurd h.symm (Option.some_ne_none x)⟩

/-- What a process relies on depends on `validlen` only, unless it has bytes of a write in
place. -/
theorem Local.of_validlen {dev dev' : Kbuf} {x : Proc} (h : Local dev x)
    (hv : dev'.validlen = dev.validlen)
    (hx : x.pc = .update → x.fr.call.isRead = false → dev'.kbuf = dev.kbuf) : Local dev' x := by
  have hfits (hf : Fits dev x.fr) : Fits dev' x.fr := by
    cases hcall : x.fr.call <;> simpa only [Fits, hcall, hv] using hf
  cases hpc : x.pc with
  | test => simpa only [Local, hpc] using h
  | min => simpa only [Local, hpc] using h
  | copy =>
    simp only [Local, hpc] at h ⊢
    exact ⟨h.1, h.2.1, hfits h.2.2⟩
  | memmove =>
    simp only [Local, hpc] at h ⊢
    exact ⟨h.1, hfits h.2⟩
  | update =>
    simp only [Local, hpc] at h ⊢
    refine ⟨hfits h.1, ?_⟩
    cases hcall : x.fr.call with
    | read cnt => simp only [Landed, hcall]
    | write buf =>
      have hk := hx hpc (by rw [hcall]; rfl)
      simpa only [Landed, hcall, hk, hv] using h.2

omit [DecidableEq P] in
/-- A state in which nobody has shifted the buffer. -/
theorem Inv.of_unshifted {s : State P} (safe : s.fault = false) (bounded : s.dev.Bounded)
    (locals : ∀ p x, s.proc p = some x → Local s.dev x)
    (none : ∀ p x, s.proc p = some x → ¬ x.Shifted)
    (account : s.delivered ++ s.dev.contents = s.accepted)
    (copied : ∀ p x, s.proc p = some x → x.pc = .memmove →
      x.fr.out = s.dev.contents.take x.fr.cnt) : Inv s :=
  ⟨safe, bounded, locals, fun p _ x _ hx _ hsx => absurd hsx (none p x hx),
    fun p x hx hsx => absurd hsx (none p x hx), fun _ => ⟨account, copied⟩⟩

/-- A step of `p` that leaves the device alone and accepts and delivers nothing. -/
theorem inv_of_still {s : State P} (h : Inv s) {p : P} {v : Option Proc} (log : List (Op × Resp))
    (hp : ∀ x, s.proc p = some x → ¬ x.Shifted) (hv : ∀ x, v = some x → Local s.dev x ∧
      ¬ x.Shifted ∧ (x.pc = .memmove → x.fr.out = s.dev.contents.take x.fr.cnt))
    (ha : log.flatMap acceptedBy = s.accepted) (hd : log.flatMap deliveredBy = s.delivered) :
    Inv { s with proc := Function.update s.proc p v, log } := by
  have hold {q : P} {x : Proc} (hq : Function.update s.proc p v q = some x) (hsx : x.Shifted) :
      s.proc q = some x := by
    cases update_eq_some hq with
    | inl hself => exact absurd hsx (hv x hself.2).2.1
    | inr hother => exact hother.2
  refine ⟨h.safe, h.bounded, ?_, ?_, ?_, ?_⟩
  · intro q x hq
    cases update_eq_some hq with
    | inl hself => exact (hv x hself.2).1
    | inr hother => exact h.locals q x hother.2
  · intro q r x y hq hr hsx hsy
    exact h.single q r x y (hold hq hsx) (hold hr hsy) hsx hsy
  · intro q x hq hsx
    have hacc := h.shifted q x (hold hq hsx) hsx
    simpa only [State.accepted, State.delivered, ha, hd] using hacc
  · intro hnone
    have hnone' (q : P) (x : Proc) (hq : s.proc q = some x) : ¬ x.Shifted := by
      by_cases hqp : q = p
      · exact hp x (hqp ▸ hq)
      · exact hnone q x ((Function.update_of_ne hqp _ _).trans hq)
    obtain ⟨hacc, hcopied⟩ := h.settled hnone'
    refine ⟨by simpa only [State.accepted, State.delivered, ha, hd] using hacc, ?_⟩
    intro q x hq hpc
    cases update_eq_some hq with
    | inl hself => exact (hv x hself.2).2.2 hpc
    | inr hother => exact hcopied q x hother.2 hpc

/-- A call that returns an error, or nothing, does not show in the account. -/
theorem leave_inv {s : State P} (h : Inv s) {p : P} (hp : ∀ x, s.proc p = some x → ¬ x.Shifted)
    {op : Op} {ret : Int} (hret : ret ≤ 0) : Inv (s.leave p s.dev (op, ⟨ret, []⟩)) := by
  apply inv_of_still h _ hp (fun x hv => absurd hv.symm (Option.some_ne_none x))
  · rw [List.flatMap_append, List.flatMap_singleton, acceptedBy_of_nonpos hret, List.append_nil]
    rfl
  · rw [List.flatMap_append, List.flatMap_singleton, deliveredBy_of_out rfl, List.append_nil]
    rfl

theorem goto_inv {s : State P} (h : Inv s) {p : P} (hp : ∀ x, s.proc p = some x → ¬ x.Shifted)
    {pc : BodyPc} {fr : Frame} (hl : Local s.dev ⟨pc, fr⟩) (hpc : pc ≠ .update)
    (hout : pc = .memmove → fr.out = s.dev.contents.take fr.cnt) :
    Inv (s.goto p s.dev ⟨pc, fr⟩) := by
  refine inv_of_still h s.log hp (fun x hv => ?_) rfl rfl
  obtain rfl := Option.some.inj hv
  exact ⟨hl, fun hs => hpc hs.1, hout⟩

/-- A step of `p` after which nobody has shifted the buffer. -/
theorem inv_of_settled {s : State P} (h : Inv s) {p : P} {v : Option Proc} {dev : Kbuf}
    (log : List (Op × Resp)) (hb : dev.Bounded)
    (hothers : ∀ q y, q ≠ p → s.proc q = some y → y.pc ≠ .update ∧ Local dev y ∧
      (y.pc = .memmove → y.fr.out = dev.contents.take y.fr.cnt))
    (hv : ∀ y, v = some y → Local dev y ∧ ¬ y.Shifted ∧ y.pc ≠ .memmove)
    (hacc : log.flatMap deliveredBy ++ dev.contents = log.flatMap acceptedBy) :
    Inv { s with dev, proc := Function.update s.proc p v, log } := by
  refine .of_unshifted h.safe hb ?_ ?_ hacc ?_
  · intro q y hq
    cases update_eq_some hq with
    | inl hself => exact (hv y hself.2).1
    | inr hother => exact (hothers q y hother.1 hother.2).2.1
  · intro q y hq
    cases update_eq_some hq with
    | inl hself => exact (hv y hself.2).2.1
    | inr hother => exact fun hs => (hothers q y hother.1 hother.2).1 hs.1
  · intro q y hq hm
    cases update_eq_some hq with
    | inl hself => exact absurd hm (hv y hself.2).2.2
    | inr hother => exact (hothers q y hother.1 hother.2).2.2 hm

section Step

variable {s : State P} {p : P} {x : Proc}

omit [DecidableEq P] in
theorem not_shifted_of_pc (hx : s.proc p = some x) (hpc : x.pc ≠ .update) :
    ∀ y, s.proc p = some y → ¬ y.Shifted := by
  intro y hy hsy
  obtain rfl := Option.some.inj (hx.symm.trans hy)
  exact hpc hsy.1

theorem test_inv (h : Inv s) (hx : s.proc p = some x) (hpc : x.pc = .test) (guard : Guard)
    (env : Env) (failed : Bool) :
    Inv (s.after p x failed (bodyStep guard env .test s.dev x.fr)) := by
  have hp := not_shifted_of_pc hx (by rw [hpc]; decide)
  have hl := h.locals p x hx
  simp only [Local, hpc] at hl
  by_cases hr : x.fr.call.ready s.dev = true
  · simp only [bodyStep, if_pos hr]
    exact goto_inv h hp hl (by decide) fun hm => absurd hm (by decide)
  · simp only [bodyStep, if_neg hr]
    cases guard with
    | refuse => exact leave_inv h hp (Int.le_of_lt x.fr.call.refusal_neg)
    | wait =>
      by_cases hsig : env.signal = true
      · simp only [if_pos hsig]
        exact leave_inv h hp (by decide)
      · simp only [if_neg hsig]
        exact h

theorem clip_fits {dev : Kbuf} (hb : dev.Bounded) {fr : Frame} (hcnt : fr.cnt = fr.call.clip dev) :
    fr.cnt ≤ fr.call.cnt ∧ Fits dev fr := by
  have hroom := Kbuf.room_eq hb
  have hbound : dev.validlen ≤ SZ_512 := hb
  cases hcall : fr.call with
  | read cnt =>
    simp only [hcall, Call.clip] at hcnt
    simp only [Fits, hcall, Call.cnt]
    omega
  | write buf =>
    simp only [hcall, Call.clip, hroom] at hcnt
    simp only [Fits, hcall, Call.cnt]
    omega

theorem min_inv (h : Inv s) (hx : s.proc p = some x) (hpc : x.pc = .min) (guard : Guard)
    (env : Env) (failed : Bool) :
    Inv (s.after p x failed (bodyStep guard env .min s.dev x.fr)) := by
  have hp := not_shifted_of_pc hx (by rw [hpc]; decide)
  have hl := h.locals p x hx
  simp only [Local, hpc] at hl
  have hout : x.fr.out = [] := by rw [hl]; rfl
  refine goto_inv h hp ⟨hout, ?_⟩ (by decide) fun hm => absurd hm (by decide)
  exact clip_fits h.bounded rfl

theorem copy_inv (h : Inv s) (hx : s.proc p = some x) (hpc : x.pc = .copy) (guard : Guard)
    (env : Env) (failed : Bool)
    (hc : ∀ q y, q ≠ p → s.proc q = some y → ¬ Clash s.dev.validlen x y) :
    Inv (s.after p x failed (bodyStep guard env .copy s.dev x.fr)) := by
  have hp := not_shifted_of_pc hx (by rw [hpc]; decide)
  have hl := h.locals p x hx
  simp only [Local, hpc] at hl
  obtain ⟨hout, hcnt, hfits⟩ := hl
  show Inv (s.after p x failed (copyStep s.dev x.fr env.fate))
  cases hcall : x.fr.call with
  | read cnt =>
    simp only [Fits, hcall] at hfits
    cases copyStep_read hcall h.bounded hfits env.fate with
    | inl hfail =>
      rw [hfail.2]
      exact leave_inv h hp (by decide)
    | inr hdone =>
      rw [hdone.2]
      refine goto_inv h hp ⟨?_, ?_⟩ (by decide) fun _ => rfl
      · rw [hcall]
        rfl
      · simpa only [Fits, hcall] using hfits
  | write buf =>
    simp only [Fits, hcall] at hfits
    rw [hcall] at hcnt
    obtain ⟨dev', hv, hcont, hend⟩ := copyStep_write hcall hcnt hfits env.fate
    have hb' : dev'.Bounded := by
      rw [Kbuf.Bounded, hv]
      exact h.bounded
    have hfree (q : P) (y : Proc) (hq : q ≠ p) (hy : s.proc q = some y) : y.pc ≠ .update := by
      have hno := hc q y hq hy
      simpa only [Clash, hpc, hcall] using hno
    have hnone (q : P) (y : Proc) (hy : s.proc q = some y) : ¬ y.Shifted := by
      by_cases hq : q = p
      · exact hp y (hq ▸ hy)
      · exact fun hs => hfree q y hq hy hs.1
    obtain ⟨hacc, hcopied⟩ := h.settled hnone
    have hothers (q : P) (y : Proc) (hq : q ≠ p) (hy : s.proc q = some y) :
        y.pc ≠ .update ∧ Local dev' y ∧
          (y.pc = .memmove → y.fr.out = dev'.contents.take y.fr.cnt) := by
      refine ⟨hfree q y hq hy, ?_, ?_⟩
      · exact (h.locals q y hy).of_validlen hv fun hu => absurd hu (hfree q y hq hy)
      · rw [hcont]
        exact hcopied q y hy
    cases hend with
    | inl hfail =>
      rw [hfail.2]
      apply inv_of_settled h _ hb' hothers (fun x hv => absurd hv.symm (Option.some_ne_none x))
      rw [List.flatMap_append, List.flatMap_append, List.flatMap_singleton, List.flatMap_singleton,
        acceptedBy_of_nonpos (by decide), deliveredBy_of_out rfl, List.append_nil, List.append_nil,
        hcont]
      exact hacc
    | inr hdone =>
      rw [hdone.2.1]
      refine inv_of_settled h s.log hb' hothers (fun y hy => ?_) ?_
      · obtain rfl := Option.some.inj hy
        refine ⟨⟨?_, ?_⟩, ?_, by simp⟩
        · simpa only [Fits, hcall, hv] using hfits
        · simp only [Landed, hcall, hv]
          exact ⟨hcnt, hout, hdone.2.2⟩
        · simp [Proc.Shifted, hcall, Call.isRead]
      · rw [hcont]
        exact hacc

theorem memmove_inv (h : Inv s) (hx : s.proc p = some x) (hpc : x.pc = .memmove) (guard : Guard)
    (env : Env) (failed : Bool)
    (hc : ∀ q y, q ≠ p → s.proc q = some y → ¬ Clash s.dev.validlen x y) :
    Inv (s.after p x failed (bodyStep guard env .memmove s.dev x.fr)) := by
  have hp := not_shifted_of_pc hx (by rw [hpc]; decide)
  have hl := h.locals p x hx
  simp only [Local, hpc] at hl
  have hread := hl.1
  have hle := (h.locals p x hx).memmove_le hpc
  have hfree (q : P) (y : Proc) (hq : q ≠ p) (hy : s.proc q = some y) :
      y.pc ≠ .memmove ∧ y.pc ≠ .update := by
    have hno := hc q y hq hy
    simpa only [Clash, hpc, not_or] using hno
  have hnone (q : P) (y : Proc) (hy : s.proc q = some y) : ¬ y.Shifted := by
    by_cases hq : q = p
    · exact hp y (hq ▸ hy)
    · exact fun hs => (hfree q y hq hy).2 hs.1
  obtain ⟨hacc, hcopied⟩ := h.settled hnone
  obtain ⟨dev', hstep, hv, hfront⟩ := memmove_step guard h.bounded hle env
  rw [hstep]
  have hb' : dev'.Bounded := by
    rw [Kbuf.Bounded, hv]
    exact h.bounded
  have hone {q : P} {y : Proc} (hq : (s.goto p dev' ⟨.update, x.fr⟩).proc q = some y)
      (hsy : y.Shifted) : q = p ∧ y = ⟨.update, x.fr⟩ := by
    cases update_eq_some hq with
    | inl hself => exact ⟨hself.1, (Option.some.inj hself.2).symm⟩
    | inr hother => exact absurd hsy (hnone q y hother.2)
  refine ⟨h.safe, hb', ?_, ?_, ?_, ?_⟩
  · intro q y hq
    cases update_eq_some hq with
    | inl hself =>
      obtain rfl := Option.some.inj hself.2
      cases hcall : x.fr.call with
      | read cnt =>
        have hle' : x.fr.cnt ≤ dev'.validlen := by
          rw [hv]
          exact hle
        refine ⟨?_, by simp only [Landed, hcall]⟩
        simp only [Fits, hcall]
        exact hle'
      | write buf => simp [hcall, Call.isRead] at hread
    | inr hother =>
      exact (h.locals q y hother.2).of_validlen hv fun hu =>
        absurd hu (hfree q y hother.1 hother.2).2
  · intro q r y z hq hr hsy hsz
    exact (hone hq hsy).1.trans (hone hr hsz).1.symm
  · intro q y hq hsy
    obtain ⟨-, rfl⟩ := hone hq hsy
    have hout := hcopied p x hx hpc
    show s.delivered ++ x.fr.out ++ dev'.kbuf.front (dev'.validlen - x.fr.cnt) = s.accepted
    rw [hv, hfront, hout, List.append_assoc, List.take_append_drop]
    exact hacc
  · intro hnone'
    have hself : (s.goto p dev' ⟨.update, x.fr⟩).proc p = some ⟨.update, x.fr⟩ :=
      Function.update_self ..
    exact absurd ⟨rfl, hread⟩ (hnone' p _ hself)

/-- With `k` bytes less stored a write still fits, and a read that leaves `k` bytes. -/
theorem Fits.lower {dev : Kbuf} {fr : Frame} (h : Fits dev fr) {k : Nat}
    (hk : fr.call.isRead = true → k + fr.cnt ≤ dev.validlen) :
    Fits { dev with validlen := dev.validlen - k } fr := by
  cases hcall : fr.call with
  | read cnt =>
    have hle := hk (by rw [hcall]; rfl)
    simp only [Fits, hcall]
    omega
  | write buf =>
    simp only [Fits, hcall] at h ⊢
    omega

/-- With `k` bytes more stored a read still fits, and a write that has room for `k` bytes more. -/
theorem Fits.raise {dev : Kbuf} {fr : Frame} (h : Fits dev fr) {k : Nat}
    (hk : fr.call.isRead = false → dev.validlen + k + fr.cnt ≤ SZ_512) :
    Fits { dev with validlen := dev.validlen + k } fr := by
  cases hcall : fr.call with
  | read cnt =>
    simp only [Fits, hcall] at h ⊢
    omega
  | write buf =>
    have hle := hk (by rw [hcall]; rfl)
    simpa only [Fits, hcall] using hle

/-- Lowering `validlen` by `k` keeps what a call relies on that has not passed its copy. -/
theorem Local.lower {dev : Kbuf} {y : Proc} (h : Local dev y) {k : Nat}
    (hm : y.pc ≠ .memmove) (hu : y.pc ≠ .update)
    (hk : y.pc = .copy → y.fr.call.isRead = true → k + y.fr.cnt ≤ dev.validlen) :
    Local { dev with validlen := dev.validlen - k } y := by
  cases hpc : y.pc with
  | test => simpa only [Local, hpc] using h
  | min => simpa only [Local, hpc] using h
  | memmove => exact absurd hpc hm
  | update => exact absurd hpc hu
  | copy =>
    simp only [Local, hpc] at h ⊢
    exact ⟨h.1, h.2.1, h.2.2.lower (hk hpc)⟩

/-- Raising `validlen` by `k` keeps what a call relies on that has no bytes in place. -/
theorem Local.raise {dev : Kbuf} {y : Proc} (h : Local dev y) {k : Nat} (hu : y.pc ≠ .update)
    (hk : y.pc = .copy → y.fr.call.isRead = false → dev.validlen + k + y.fr.cnt ≤ SZ_512) :
    Local { dev with validlen := dev.validlen + k } y := by
  cases hpc : y.pc with
  | test => simpa only [Local, hpc] using h
  | min => simpa only [Local, hpc] using h
  | update => exact absurd hpc hu
  | memmove =>
    simp only [Local, hpc] at h ⊢
    refine ⟨h.1, h.2.raise ?_⟩
    intro hwrite
    rw [h.1] at hwrite
    cases hwrite
  | copy =>
    simp only [Local, hpc] at h ⊢
    exact ⟨h.1, h.2.1, h.2.2.raise (hk hpc)⟩

theorem read_update_inv (h : Inv s) (hx : s.proc p = some x) (hpc : x.pc = .update) {cnt : Nat}
    (hcall : x.fr.call = .read cnt) (guard : Guard) (env : Env) (failed : Bool)
    (hc : ∀ q y, q ≠ p → s.proc q = some y → ¬ Clash s.dev.validlen x y) :
    Inv (s.after p x failed (bodyStep guard env .update s.dev x.fr)) := by
  have hl := h.locals p x hx
  simp only [Local, hpc, Fits, hcall] at hl
  have hsx : x.Shifted := ⟨hpc, by rw [hcall]; rfl⟩
  have hacc := h.shifted p x hx hsx
  show Inv (s.after p x failed (.done (updateStep s.dev x.fr) x.fr))
  rw [updateStep_read hcall h.bounded hl.1]
  refine inv_of_settled h _ (Nat.le_trans (Nat.sub_le _ _) h.bounded) ?_
    (fun x hv => absurd hv.symm (Option.some_ne_none x)) ?_
  · intro q y hq hy
    have hno := hc q y hq hy
    simp only [Clash, hpc, hcall, not_or, not_and, Nat.not_lt] at hno
    exact ⟨hno.2.1, (h.locals q y hy).lower hno.1 hno.2.1 hno.2.2, fun hm => absurd hm hno.1⟩
  · rw [List.flatMap_append, List.flatMap_append, List.flatMap_singleton, List.flatMap_singleton]
    simp only [acceptedBy, deliveredBy, hcall, List.append_nil]
    exact hacc

theorem write_update_inv (h : Inv s) (hx : s.proc p = some x) (hpc : x.pc = .update)
    {buf : List Byte} (hcall : x.fr.call = .write buf) (guard : Guard) (env : Env) (failed : Bool)
    (hc : ∀ q y, q ≠ p → s.proc q = some y → ¬ Clash s.dev.validlen x y) :
    Inv (s.after p x failed (bodyStep guard env .update s.dev x.fr)) := by
  have hl := h.locals p x hx
  simp only [Local, hpc, Fits, Landed, hcall] at hl
  obtain ⟨hfits, hlen, hout, hslice⟩ := hl
  have hfree (q : P) (y : Proc) (hq : q ≠ p) (hy : s.proc q = some y) : y.pc ≠ .update := by
    have hno := hc q y hq hy
    simp only [Clash, hpc, hcall, not_or] at hno
    exact hno.1
  have hnone (q : P) (y : Proc) (hy : s.proc q = some y) : ¬ y.Shifted := by
    intro hsy
    by_cases hq : q = p
    · subst hq
      obtain rfl := Option.some.inj (hx.symm.trans hy)
      simp [Proc.Shifted, hcall, Call.isRead] at hsy
    · exact hfree q y hq hy hsy.1
  obtain ⟨hacc, hcopied⟩ := h.settled hnone
  have hgrown : Kbuf.contents { s.dev with validlen := s.dev.validlen + x.fr.cnt } =
      s.dev.contents ++ buf.take x.fr.cnt := by
    show s.dev.kbuf.front (s.dev.validlen + x.fr.cnt) = _
    rw [FixedBuffer.front_add, hslice]
    rfl
  show Inv (s.after p x failed (.done (updateStep s.dev x.fr) x.fr))
  rw [updateStep_write hcall hfits]
  refine inv_of_settled h _ hfits ?_ (fun x hv => absurd hv.symm (Option.some_ne_none x)) ?_
  · intro q y hq hy
    have hno := hc q y hq hy
    simp only [Clash, hpc, hcall, not_or, not_and, Nat.not_lt] at hno
    refine ⟨hno.1, (h.locals q y hy).raise hno.1 hno.2, fun hm => ?_⟩
    have hle := (h.locals q y hy).memmove_le hm
    rw [← Kbuf.contents_length h.bounded] at hle
    rw [hgrown, List.take_append_of_le_length hle]
    exact hcopied q y hy hm
  · rw [List.flatMap_append, List.flatMap_append, List.flatMap_singleton, List.flatMap_singleton]
    simp only [acceptedBy, deliveredBy, hcall, List.append_nil, Int.toNat_natCast, hgrown]
    rw [← List.append_assoc]
    exact congrArg (· ++ _) hacc

theorem body_inv (h : Inv s) (hx : s.proc p = some x) (guard : Guard) (env : Env) (failed : Bool)
    (hc : ∀ q y, q ≠ p → s.proc q = some y → ¬ Clash s.dev.validlen x y) :
    Inv (s.after p x failed (bodyStep guard env x.pc s.dev x.fr)) := by
  cases hpc : x.pc with
  | test => exact test_inv h hx hpc guard env failed
  | min => exact min_inv h hx hpc guard env failed
  | copy => exact copy_inv h hx hpc guard env failed hc
  | memmove => exact memmove_inv h hx hpc guard env failed hc
  | update =>
    cases hcall : x.fr.call with
    | read cnt => exact read_update_inv h hx hpc hcall guard env failed hc
    | write buf => exact write_update_inv h hx hpc hcall guard env failed hc

end Step

theorem step_inv {guard : Guard} {s : State P} (h : Inv s) (a : Act P) (hc : Undisturbed s a) :
    Inv (step guard s a) := by
  cases a with
  | invoke p call =>
    cases hp : s.proc p with
    | some x => simpa only [step, hp] using h
    | none =>
      have hidle (x : Proc) (hx : s.proc p = some x) : ¬ x.Shifted := by
        rw [hp] at hx
        cases hx
      simp only [step, hp]
      by_cases h0 : call.cnt = 0
      · rw [if_pos h0]
        exact leave_inv h hidle (Int.le_refl 0)
      · rw [if_neg h0]
        exact goto_inv h hidle rfl (by decide) fun hm => absurd hm (by decide)
  | run p env =>
    cases hp : s.proc p with
    | none => simpa only [step, hp] using h
    | some x =>
      simp only [step, hp]
      exact body_inv h hp guard env _ fun q y hq hy => hc x hp q hq y hy

/-- In every run of the unlocked drivers in which no step clashes with another process, the
arithmetic and the buffer are safe and every byte is accounted for. -/
theorem unlocked_safe (guard : Guard) (acts : List (Act P))
    (h : (machine guard P).Meets Undisturbed acts) : Safe ((machine guard P).run acts) := by
  have hinv : Inv ((machine guard P).run acts) := by
    refine Machine.run_invariant_of_meets (I := Inv) start_inv ?_ h
    intro s a hc hi
    exact step_inv hi a hc
  exact hinv.to_safe

/-- Process `p` takes its next step, its copies succeeding and no signal pending. -/
def go (p : Fin 2) : Act (Fin 2) := .run p ⟨.success, false⟩

/-- A write that overlaps a read of the byte before it. -/
theorem overlapping_write_safe : Safe ((machine .wait (Fin 2)).run
    [.invoke 0 (.write [7]), go 0, go 0, go 0, go 0, .invoke 0 (.read 1), .invoke 1 (.write [8]),
      go 0, go 1, go 0, go 1, go 0, go 1, go 1, go 0, go 0]) :=
  unlocked_safe .wait _ (by decide +kernel)

/-- Four bytes are written, two readers copy them, and the first takes them off the buffer. -/
def twoReaders : List (Act (Fin 2)) :=
  [.invoke 0 (.write [1, 2, 3, 4]), go 0, go 0, go 0, go 0,
    .invoke 0 (.read 4), .invoke 1 (.read 4), go 0, go 1, go 0, go 1, go 0, go 1, go 0, go 0]

/-- The second of two overlapping reads comes to its `memmove` with more bytes than are left. -/
theorem two_readers_unsafe :
    ¬ Safe ((machine .wait (Fin 2)).run twoReaders) ∧
      ¬ Safe ((machine .refuse (Fin 2)).run twoReaders) := by
  have hbad (s : State (Fin 2)) (hs : (s.proc 1).any (fun x =>
      x.pc == .memmove && x.fr.call.isRead && s.dev.validlen < x.fr.cnt) = true) : ¬ Safe s := by
    intro h
    obtain ⟨x, hx, hwrong⟩ := Option.any_eq_true _ _ |>.mp hs
    simp only [Bool.and_eq_true, beq_iff_eq, decide_eq_true_eq] at hwrong
    have hle := h.reads 1 x hx (Or.inl hwrong.1.1) hwrong.1.2
    exact absurd hwrong.2 (Nat.not_lt.mpr hle)
  exact ⟨hbad _ (by decide +kernel), hbad _ (by decide +kernel)⟩

end KernelDrivers.Kbufdrv.Unlocked
