import KernelDrivers.Kbufdrv.Fifo

namespace KernelDrivers.Kbufdrv

open Framework Kernel

/-- The points of `kbuf_read` and `kbuf_write` between which other processes can run.
Only a read reaches `memmove`. -/
inductive BodyPc where
  | test
  | min
  | copy
  | memmove
  | update
  deriving DecidableEq

/-- The local variables of a call: `cnt`, and the bytes it has put into the user's buffer. -/
structure Frame where
  call : Call
  cnt : Nat
  out : List Byte

def Frame.enter (call : Call) : Frame := ⟨call, call.cnt, []⟩

/-- What a driver does when its test fails: return the error of the call, or sleep in
`wait_event_interruptible` until the condition holds or a signal comes. -/
inductive Guard where
  | refuse
  | wait
  deriving DecidableEq

/-- What surrounds one step of a process: the fate of its user copy, and whether a signal
is pending. -/
structure Env where
  fate : CopyFate
  signal : Bool

/-- How a step of the body ends. `error` and `done` are its two exits, and there is no
device after an access outside the buffer. -/
inductive Move where
  | stay
  | next (pc : BodyPc) (dev : Kbuf) (fr : Frame)
  | error (dev : Kbuf) (ret : Int)
  | done (dev : Kbuf) (fr : Frame)
  | fault

/-- `copy_to_user` of a read and `copy_from_user` of a write. -/
def copyStep (dev : Kbuf) (fr : Frame) (fate : CopyFate) : Move :=
  match fr.call with
  | .read _ =>
    match dev.copyToUser fr.cnt fate with
    | none => .fault
    | some (left, bytes) =>
      if left ≠ 0 then .error dev (-eio) else .next .memmove dev { fr with out := bytes }
  | .write buf =>
    match dev.copyFromUser (buf.take fr.cnt) fate with
    | none => .fault
    | some (left, dev) => if left ≠ 0 then .error dev (-eio) else .next .update dev fr

/-- `pdev->validlen -= cnt` of a read and `pdev->validlen += cnt` of a write. -/
def updateStep (dev : Kbuf) (fr : Frame) : Kbuf :=
  match fr.call with
  | .read _ => { dev with validlen := sizeSub dev.validlen fr.cnt }
  | .write _ => { dev with validlen := sizeAdd dev.validlen fr.cnt }

/-- One step of the body of `kbuf_read` or `kbuf_write`, in the order of the source. -/
def bodyStep (guard : Guard) (env : Env) (pc : BodyPc) (dev : Kbuf) (fr : Frame) : Move :=
  match pc with
  | .test =>
    if fr.call.ready dev then .next .min dev fr
    else
      match guard with
      | .refuse => .error dev fr.call.refusal
      | .wait => if env.signal then .error dev (-erestartsys) else .stay
  | .min => .next .copy dev { fr with cnt := fr.call.clip dev }
  | .copy => copyStep dev fr env.fate
  | .memmove =>
    match dev.shiftDown fr.cnt with
    | none => .fault
    | some dev => .next .update dev fr
  | .update => .done (updateStep dev fr) fr

/-- Whether the next step is a copy that fails, by the fate that it meets. -/
def copyFails (pc : BodyPc) (fr : Frame) (fate : CopyFate) : Bool :=
  match pc with
  | .copy => fate.residue fr.cnt != 0
  | .test | .min | .memmove | .update => false

/-- The body of a call that nobody else interrupts, in at most `n` steps. -/
def bodyRun (guard : Guard) (env : Env) : Nat → BodyPc → Kbuf → Frame → Option Outcome
  | 0, _, _, _ => none
  | n + 1, pc, dev, fr =>
    match bodyStep guard env pc dev fr with
    | .next pc dev fr => bodyRun guard env n pc dev fr
    | .error dev ret => some ⟨ret, [], dev, false⟩
    | .done dev fr => some ⟨fr.cnt, fr.out, dev, true⟩
    | .stay => none
    | .fault => none

/-- Taken without interruption the steps are the sequential call. -/
theorem bodyRun_eq (env : Env) (dev : Kbuf) (call : Call) :
    bodyRun .refuse env 5 .test dev (.enter call) =
      if call.ready dev = false then some ⟨call.refusal, [], dev, false⟩
      else transfer dev call env.fate := by
  by_cases hr : call.ready dev = false
  · rw [if_pos hr]
    simp [bodyRun, bodyStep, Frame.enter, hr]
  · have hready : call.ready dev = true := by simpa using hr
    rw [if_neg hr]
    cases call with
    | read cnt =>
      simp only [bodyRun, bodyStep, Frame.enter, hready, if_true, copyStep, Call.clip,
        transfer, readOut]
      cases hcopy : dev.copyToUser (min cnt dev.validlen) env.fate with
      | none => rfl
      | some e =>
        obtain ⟨left, bytes⟩ := e
        by_cases hleft : left = 0
        · simp only [hleft, ne_eq, not_true_eq_false, if_false]
          cases hshift : dev.shiftDown (min cnt dev.validlen) with
          | none => simp
          | some dev' => simp [updateStep]
        · simp [hleft]
    | write buf =>
      simp only [bodyRun, bodyStep, Frame.enter, hready, if_true, copyStep, Call.clip,
        transfer, writeIn]
      cases hcopy : dev.copyFromUser (buf.take (min buf.length (sizeSub SZ_512 dev.validlen)))
          env.fate with
      | none => rfl
      | some e =>
        obtain ⟨left, dev'⟩ := e
        by_cases hleft : left = 0
        · simp [hleft, updateStep]
        · simp [hleft]

section Spec

variable {dev : Kbuf} {fr : Frame}

theorem copyStep_read {cnt : Nat} (hcall : fr.call = .read cnt) (hb : dev.Bounded)
    (hc : fr.cnt ≤ dev.validlen) (fate : CopyFate) :
    (fate.residue fr.cnt ≠ 0 ∧ copyStep dev fr fate = .error dev (-eio)) ∨
      (fate.residue fr.cnt = 0 ∧ copyStep dev fr fate =
        .next .memmove dev { fr with out := dev.contents.take fr.cnt }) := by
  have hcopy := Kbuf.copyToUser_eq hb hc fate
  by_cases hres : fate.residue fr.cnt = 0
  · exact Or.inr ⟨hres, by simp [copyStep, hcall, hcopy, hres]⟩
  · exact Or.inl ⟨hres, by simp [copyStep, hcall, hcopy, hres]⟩

/-- A copy into the free room keeps the stored bytes, and if it succeeds the user's bytes
are in place behind them. -/
theorem copyStep_write {buf : List Byte} (hcall : fr.call = .write buf)
    (hlen : fr.cnt ≤ buf.length) (hc : dev.validlen + fr.cnt ≤ SZ_512) (fate : CopyFate) :
    ∃ dev' : Kbuf, dev'.validlen = dev.validlen ∧ dev'.contents = dev.contents ∧
      ((fate.residue fr.cnt ≠ 0 ∧ copyStep dev fr fate = .error dev' (-eio)) ∨
        (fate.residue fr.cnt = 0 ∧ copyStep dev fr fate = .next .update dev' fr ∧
          dev'.kbuf.slice dev.validlen fr.cnt = buf.take fr.cnt)) := by
  have htake : (buf.take fr.cnt).length = fr.cnt := by
    rw [List.length_take, Nat.min_eq_left hlen]
  obtain ⟨dev', hcopy, hv, hcont, hs⟩ := Kbuf.copyFromUser_eq (by rw [htake]; exact hc) fate
  rw [htake] at hcopy hs
  refine ⟨dev', hv, hcont, ?_⟩
  by_cases hres : fate.residue fr.cnt = 0
  · exact Or.inr ⟨hres, by simp [copyStep, hcall, hcopy, hres], hs hres⟩
  · exact Or.inl ⟨hres, by simp [copyStep, hcall, hcopy, hres]⟩

theorem memmove_step (guard : Guard) (hb : dev.Bounded) (hc : fr.cnt ≤ dev.validlen) (env : Env) :
    ∃ dev' : Kbuf, bodyStep guard env .memmove dev fr = .next .update dev' fr ∧
      dev'.validlen = dev.validlen ∧
      dev'.kbuf.front (dev.validlen - fr.cnt) = dev.contents.drop fr.cnt := by
  obtain ⟨dev', hshift, hv, hf⟩ := Kbuf.shiftDown_eq hb hc
  exact ⟨dev', by simp [bodyStep, hshift], hv, hf⟩

theorem updateStep_read {cnt : Nat} (hcall : fr.call = .read cnt) (hb : dev.Bounded)
    (hc : fr.cnt ≤ dev.validlen) :
    updateStep dev fr = { dev with validlen := dev.validlen - fr.cnt } := by
  have hle : dev.validlen ≤ SIZE_MAX := Nat.le_trans hb (by decide)
  rw [updateStep, hcall, ← sizeSub_of_le hc hle]

theorem updateStep_write {buf : List Byte} (hcall : fr.call = .write buf)
    (hc : dev.validlen + fr.cnt ≤ SZ_512) :
    updateStep dev fr = { dev with validlen := dev.validlen + fr.cnt } := by
  have hle : dev.validlen + fr.cnt ≤ SIZE_MAX := Nat.le_trans hc (by decide)
  rw [updateStep, hcall, ← sizeAdd_of_lt hle]

end Spec

/-- Where a call stands that has its device to itself, `q` being what the device held when
the call began. -/
def AtStage (q : List Byte) (dev : Kbuf) (fr : Frame) : BodyPc → Prop
  | .test => dev.contents = q ∧ fr = .enter fr.call
  | .min => dev.contents = q ∧ available q fr.call = true ∧ fr = .enter fr.call
  | .copy => dev.contents = q ∧ available q fr.call = true ∧ fr.cnt = fr.call.clip dev ∧ fr.out = []
  | .memmove => dev.contents = q ∧ available q fr.call = true ∧
      ∃ cnt, fr = ⟨.read cnt, min cnt q.length, q.take cnt⟩
  | .update => dev.validlen = q.length ∧ available q fr.call = true ∧
      match fr.call with
      | .read cnt => fr.cnt = min cnt q.length ∧ fr.out = q.take cnt ∧
          dev.kbuf.front (q.length - fr.cnt) = q.drop cnt
      | .write buf => fr.cnt = min buf.length (SZ_512 - q.length) ∧ fr.out = [] ∧
          dev.contents = q ∧ dev.kbuf.slice q.length fr.cnt = buf.take fr.cnt

/-- The next stage of a call, or its end as one step of the FIFO; `failed` says whether a copy has
failed in the step. -/
inductive StageEnd (q : List Byte) (fr : Frame) (failed : Bool) : Move → Prop where
  | next {pc : BodyPc} {dev' : Kbuf} {fr' : Frame} (copied : failed = false)
      (call : fr'.call = fr.call) (bounded : dev'.Bounded) (stage : AtStage q dev' fr' pc) :
      StageEnd q fr failed (.next pc dev' fr')
  | error {dev' : Kbuf} {ret : Int} (bounded : dev'.Bounded) (out : fr.out = [])
      (answer : fifoStep q ⟨fr.call, failed⟩ = (dev'.contents, ⟨ret, []⟩)) :
      StageEnd q fr failed (.error dev' ret)
  | done {dev' : Kbuf} (copied : failed = false) (bounded : dev'.Bounded)
      (answer : fifoStep q ⟨fr.call, false⟩ = (dev'.contents, ⟨fr.cnt, fr.out⟩)) :
      StageEnd q fr failed (.done dev' fr)

theorem fifoStep_served {q : List Byte} {call : Call} (h0 : call.cnt ≠ 0)
    (ha : available q call = true) : fifoStep q ⟨call, false⟩ = fifoEffect q call := by
  simp [fifoStep, h0, ha]

theorem fifoStep_failed {q : List Byte} {call : Call} (h0 : call.cnt ≠ 0)
    (ha : available q call = true) : fifoStep q ⟨call, true⟩ = (q, ⟨-eio, []⟩) := by
  simp [fifoStep, h0, ha]

theorem fifoStep_refused {q : List Byte} {call : Call} (h0 : call.cnt ≠ 0)
    (ha : available q call = false) : fifoStep q ⟨call, false⟩ = (q, ⟨call.refusal, []⟩) := by
  simp [fifoStep, h0, ha]

section Stage

variable {q : List Byte} {dev : Kbuf} {fr : Frame}

theorem test_stageEnd (hb : dev.Bounded) (h0 : fr.call.cnt ≠ 0) (h : AtStage q dev fr .test)
    (env : Env) : StageEnd q fr false (bodyStep .refuse env .test dev fr) := by
  obtain ⟨hq, henter⟩ := h
  have hready := ready_eq hb fr.call
  rw [hq] at hready
  simp only [bodyStep]
  by_cases ha : available q fr.call = true
  · rw [if_pos (hready.trans ha)]
    exact .next rfl rfl hb ⟨hq, ha, henter⟩
  · have hna : available q fr.call = false := Bool.eq_false_iff.mpr ha
    have hnr : ¬ fr.call.ready dev = true := by rw [hready]; exact ha
    rw [if_neg hnr]
    refine .error hb (by rw [henter]; rfl) ?_
    rw [fifoStep_refused h0 hna, hq]

theorem copy_stageEnd (hb : dev.Bounded) (h0 : fr.call.cnt ≠ 0) (h : AtStage q dev fr .copy)
    (env : Env) :
    StageEnd q fr (copyFails .copy fr env.fate) (bodyStep .refuse env .copy dev fr) := by
  obtain ⟨hq, ha, hcnt, hout⟩ := h
  have hlen := Kbuf.contents_length hb
  rw [hq] at hlen
  have hbound : dev.validlen ≤ SZ_512 := hb
  show StageEnd q fr (env.fate.residue fr.cnt != 0) (copyStep dev fr env.fate)
  cases hcall : fr.call with
  | read cnt =>
    rw [hcall] at ha hcnt h0
    have hle : fr.cnt ≤ dev.validlen := by rw [hcnt]; exact Nat.min_le_right _ _
    cases copyStep_read hcall hb hle env.fate with
    | inl hfail =>
      rw [hfail.2, bne_iff_ne.mpr hfail.1]
      refine .error hb hout ?_
      rw [hcall, fifoStep_failed h0 ha, hq]
    | inr hdone =>
      have hmin : fr.cnt = min cnt q.length := by rw [hcnt, hlen]; rfl
      have htake : q.take fr.cnt = q.take cnt := by
        rw [hmin, List.take_eq_take_iff]
        simp
      rw [hdone.2, hq]
      refine .next (by rw [hdone.1]; rfl) rfl hb ⟨hq, by rw [hcall]; exact ha, cnt, ?_⟩
      rw [hcall, ← hmin, htake]
  | write buf =>
    rw [hcall] at ha hcnt h0
    have hmin : fr.cnt = min buf.length (SZ_512 - q.length) := by
      rw [hcnt, hlen, ← Kbuf.room_eq hb]
      rfl
    have hroom : dev.validlen + fr.cnt ≤ SZ_512 := by omega
    obtain ⟨dev', hv, hc, hend⟩ := copyStep_write hcall (by omega) hroom env.fate
    have hb' : dev'.Bounded := by
      rw [Kbuf.Bounded, hv]
      exact hb
    rw [hq] at hc
    cases hend with
    | inl hfail =>
      rw [hfail.2, bne_iff_ne.mpr hfail.1]
      refine .error hb' hout ?_
      rw [hcall, fifoStep_failed h0 ha, hc]
    | inr hdone =>
      rw [hdone.2.1]
      refine .next (by rw [hdone.1]; rfl) rfl hb' ⟨hv.trans hlen.symm, by rw [hcall]; exact ha, ?_⟩
      rw [hcall]
      refine ⟨hmin, hout, hc, ?_⟩
      rw [hlen]
      exact hdone.2.2

theorem memmove_stageEnd (hb : dev.Bounded) (h : AtStage q dev fr .memmove) (env : Env) :
    StageEnd q fr false (bodyStep .refuse env .memmove dev fr) := by
  obtain ⟨hq, ha, cnt, hfr⟩ := h
  have hlen := Kbuf.contents_length hb
  rw [hq] at hlen
  have hcnt : fr.cnt = min cnt q.length := by rw [hfr]
  have hle : fr.cnt ≤ dev.validlen := by omega
  obtain ⟨dev', hstep, hv, hfront⟩ := memmove_step .refuse hb hle env
  have hb' : dev'.Bounded := by
    rw [Kbuf.Bounded, hv]
    exact hb
  have hdrop : q.drop fr.cnt = q.drop cnt := by
    rw [hcnt]
    cases Nat.le_total cnt q.length with
    | inl hle => rw [Nat.min_eq_left hle]
    | inr hle => rw [Nat.min_eq_right hle, List.drop_length, List.drop_eq_nil_of_le hle]
  rw [hstep]
  refine .next rfl rfl hb' ⟨hv.trans hlen.symm, ha, ?_⟩
  rw [hq, ← hlen, hdrop] at hfront
  rw [hfr] at hfront ⊢
  exact ⟨rfl, rfl, hfront⟩

theorem update_stageEnd (hb : dev.Bounded) (h0 : fr.call.cnt ≠ 0) (h : AtStage q dev fr .update)
    (env : Env) : StageEnd q fr false (bodyStep .refuse env .update dev fr) := by
  obtain ⟨hv, ha, hstage⟩ := h
  have hbound : dev.validlen ≤ SZ_512 := hb
  show StageEnd q fr false (.done (updateStep dev fr) fr)
  cases hcall : fr.call with
  | read cnt =>
    rw [hcall] at ha h0 hstage
    obtain ⟨hcnt, hout, hfront⟩ := hstage
    have hrest : Kbuf.contents { dev with validlen := dev.validlen - fr.cnt } = q.drop cnt := by
      show dev.kbuf.front (dev.validlen - fr.cnt) = _
      rw [hv]
      exact hfront
    rw [updateStep_read hcall hb (by omega)]
    refine .done rfl (Nat.le_trans (Nat.sub_le _ _) hbound) ?_
    rw [hcall, fifoStep_served h0 ha, hrest, hcnt, hout]
    rfl
  | write buf =>
    rw [hcall] at ha h0 hstage
    obtain ⟨hcnt, hout, hq, hslice⟩ := hstage
    have hroom : dev.validlen + fr.cnt ≤ SZ_512 := by omega
    have htake : buf.take fr.cnt = BoundedFifo.admitted SZ_512 q buf := by
      rw [hcnt, BoundedFifo.admitted, List.take_eq_take_iff]
      omega
    have hgrown : Kbuf.contents { dev with validlen := dev.validlen + fr.cnt } =
        q ++ BoundedFifo.admitted SZ_512 q buf := by
      show dev.kbuf.front (dev.validlen + fr.cnt) = _
      rw [FixedBuffer.front_add, hv, hslice, htake, ← hv]
      exact congrArg (· ++ _) hq
    rw [updateStep_write hcall hroom]
    refine .done rfl hroom ?_
    rw [hcall, fifoStep_served h0 ha, hgrown, hcnt, hout]
    rfl

/-- A call that has the device to itself moves from stage to stage until it ends as one
step of the FIFO. -/
theorem body_stageEnd {pc : BodyPc} (hb : dev.Bounded) (h0 : fr.call.cnt ≠ 0)
    (h : AtStage q dev fr pc) (env : Env) :
    StageEnd q fr (copyFails pc fr env.fate) (bodyStep .refuse env pc dev fr) := by
  cases pc with
  | test => exact test_stageEnd hb h0 h env
  | min =>
    obtain ⟨hq, ha, henter⟩ := h
    exact .next rfl rfl hb ⟨hq, ha, rfl, by rw [henter]; rfl⟩
  | copy => exact copy_stageEnd hb h0 h env
  | memmove => exact memmove_stageEnd hb h env
  | update => exact update_stageEnd hb h0 h env

end Stage

end KernelDrivers.Kbufdrv
