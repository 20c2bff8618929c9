import KernelDrivers.Framework.CString
import KernelDrivers.Kbufdrv.Ioctl

namespace KernelDrivers.Kbufdrv.Programs

open Framework Kernel

/-- The size of the buffer of each of the programs for the device. -/
def CNT : Nat := 512

/-- The size of the buffer of app/cat.c. -/
def CAT_CNT : Nat := 64

/-- What a path leads to: a file, with the bytes that an open of it has not read yet, or the
device. -/
inductive Node where
  | file (bytes : List Byte)
  | kbuf

abbrev Paths := List Byte → Option Node

inductive Program where
  | read
  | write
  | ioctl
  | cat

/-- What a run finds in its memory: the bytes of its buffer, the address of the buffer and what
lies behind it, and the address of `*bufdata.len` and its value. -/
structure Memory where
  buf : FixedBuffer Byte CNT
  bufAt : Ioctl.UserPtr
  beyond : Ioctl.UserPtr → Byte
  lenAt : Ioctl.UserPtr
  len : Nat

structure Run where
  program : Program
  argv : List CStr
  memory : Memory

/-- How a run ends; an error is the value returned by its call. -/
inductive Ending where
  | usage
  | abort
  | noFile
  | perror (ret : Int)
  | read (retr : Int) (text : List Byte)
  | wrote (retw : Int)
  | text (text : List Byte)
  | sent (ready : Nat) (written : Option Nat)
  | copied (out : List Byte) (ok : Bool)

/-- `read` on an open path: its value, the bytes, what is left of the file, and the device. -/
def Node.read (src : Node) (s : Kbuf) (cnt : Nat) : Option (Int × List Byte × Node × Kbuf) :=
  match src with
  | .file bytes => some ((bytes.take cnt).length, bytes.take cnt, .file (bytes.drop cnt), s)
  | .kbuf => (Ioctl.kbufRead s cnt .success).map fun o => (o.ret, o.out, .kbuf, o.dev)

/-- The memory as the driver sees it through `&bufdata`. -/
def Memory.user (m : Memory) : Ioctl.User where
  arg := ⟨m.bufAt, m.lenAt⟩
  argLeft := 0
  junk := ⟨m.bufAt, m.lenAt⟩
  size p := if p = m.lenAt then some m.len else none
  writable p := p == m.lenAt
  mem p := m.buf.cells.getD (p - m.bufAt) (m.beyond p)
  fate := .success

/-- The memory after an ioctl; there is none when the driver has written beyond the buffer. -/
def Memory.after (m : Memory) (r : Ioctl.Result) : Option Memory := do
  let buf ← match r.out with
    | none => some m.buf
    | some (p, bytes) => m.buf.write? (p - m.bufAt) bytes
  let len := match r.stored with
    | none => m.len
    | some (_, n) => n.toNat
  return { m with buf, len }

/-- The memory after a `read` into the buffer; without a byte the length stays as it was found. -/
def Memory.load (m : Memory) (ret : Int) (bytes : List Byte) : Option Memory :=
  (m.buf.write? 0 bytes).map fun buf =>
    { m with buf, len := if 0 < ret then ret.toNat else m.len }

/-- `buf[n] = '\0'`, and what `%s` makes of `buf`. -/
def printed (buf : FixedBuffer Byte CNT) (n : Nat) : Option (List Byte) := do
  let buf ← buf.write? n [0]
  cString buf.cells

/-- `./rd /dev/kbufx` -/
def readMain (s : Kbuf) (m : Memory) (argv : List CStr) : Option (Kbuf × Ending) :=
  match argv with
  | [_, _] => do
    let o ← Ioctl.kbufRead s (CNT - 1) .success
    if o.ret < 0 then return (o.dev, .perror o.ret)
    let buf ← m.buf.write? 0 o.out
    let text ← printed buf o.ret.toNat
    return (o.dev, .read o.ret text)
  | _ => some (s, .usage)

/-- `./wr /dev/kbufx file` -/
def writeMain (paths : Paths) (s : Kbuf) (argv : List CStr) : Option (Kbuf × Ending) :=
  match argv with
  | [_, _, path] =>
    match paths path.text with
    | none => some (s, .noFile)
    | some src => do
      let (retr, buf, _, s) ← src.read s CNT
      if retr ≤ 0 then return (s, .abort)
      let o ← Ioctl.kbufWrite s (buf.take retr.toNat) .success
      return (o.dev, if o.ret < 0 then .perror o.ret else .wrote o.ret)
  | _ => some (s, .usage)

/-- The rest of `./ioctl /dev/kbufx wr file` once the file has been read. -/
def ioctlSend (s : Kbuf) (m : Memory) : Option (Kbuf × Ending) := do
  let r ← Ioctl.kbufUnlockedIoctl s Ioctl.USR_WR_BUF m.user
  if r.ret < 0 then return (r.dev, .sent m.len none)
  let m' ← m.after r
  return (r.dev, .sent m.len (some m'.len))

/-- `./ioctl /dev/kbufx rd` and `./ioctl /dev/kbufx wr file` -/
def ioctlMain (paths : Paths) (s : Kbuf) (m : Memory) (argv : List CStr) :
    Option (Kbuf × Ending) :=
  match argv with
  | [_, _, word] => do
    let differs ← CStr.strcmp word.memory (ascii ['r', 'd'] ++ [0])
    if differs ≠ 0 then return (s, .usage)
    let m := { m with len := CNT - 1 }
    let r ← Ioctl.kbufUnlockedIoctl s Ioctl.USR_RD_BUF m.user
    if r.ret < 0 then return (r.dev, .perror r.ret)
    let m ← m.after r
    let text ← printed m.buf m.len
    return (r.dev, .text text)
  | [_, _, word, path] => do
    let differs ← CStr.strcmp word.memory (ascii ['w', 'r'] ++ [0])
    if differs ≠ 0 then return (s, .usage)
    match paths path.text with
    | none => return (s, .noFile)
    | some src =>
      let (ret, bytes, _, s) ← src.read s CNT
      if ret < 0 then return (s, .perror ret)
      let m ← m.load ret bytes
      ioctlSend s m
  | _ => some (s, .usage)

/-- The loop of app/cat.c, with what it has written so far; there is no result when `fuel` does
not last. -/
def catLoop : Nat → Node → Kbuf → List Byte → Option (Kbuf × List Byte × Int)
  | 0, _, _, _ => none
  | fuel + 1, src, s, out => do
    let (ret, buf, src, s) ← src.read s CAT_CNT
    if 0 < ret then catLoop fuel src s (out ++ buf.take ret.toNat)
    else return (s, out, ret)

/-- How many bytes there are to read. -/
def Node.size (s : Kbuf) : Node → Nat
  | .file bytes => bytes.length
  | .kbuf => s.validlen

/-- `./cat file`, which asserts in the end that it has not met an error. -/
def catMain (paths : Paths) (s : Kbuf) (argv : List CStr) : Option (Kbuf × Ending) :=
  match argv with
  | [_, path] =>
    match paths path.text with
    | none => some (s, .abort)
    | some src => do
      let (s, out, ret) ← catLoop (src.size s + 1) src s []
      return (s, .copied out (ret == 0))
  | _ => some (s, .usage)

def runMain (paths : Paths) (s : Kbuf) (run : Run) : Option (Kbuf × Ending) :=
  match run.program with
  | .read => readMain s run.memory run.argv
  | .write => writeMain paths s run.argv
  | .ioctl => ioctlMain paths s run.memory run.argv
  | .cat => catMain paths s run.argv

/-- One run after another; there is no result when one of them makes an access fail. -/
def session (paths : Paths) : Kbuf → List Run → Option (Kbuf × List Ending)
  | s, [] => some (s, [])
  | s, run :: runs => do
    let (s, exit) ← runMain paths s run
    let (s, exits) ← session paths s runs
    return (s, exit :: exits)

/-- The programs pass bytes on through a pipe of 512 places. -/
abbrev admitted : List Byte → List Byte → List Byte := BoundedFifo.admitted SZ_512

/-- What `ioctl wr` sends, and the length that it says it sends. -/
def message (m : Memory) (bytes : List Byte) : List Byte × Nat :=
  if bytes = [] then (m.buf.cells.take m.len, m.len)
  else (bytes.take CNT, (bytes.take CNT).length)

/-- One run on the bytes in the pipe. -/
def pipeMain (paths : Paths) (q : List Byte) (run : Run) : List Byte × Ending :=
  match run.program, run.argv with
  | .read, [_, _] =>
    (q.drop (CNT - 1), if q = [] then .perror (-eagain)
      else .read (min (CNT - 1) q.length : Nat) (shown (q.take (CNT - 1))))
  | .write, [_, _, path] =>
    match paths path.text with
    | none => (q, .noFile)
    | some (.file bytes) =>
      if bytes = [] then (q, .abort)
      else (q ++ admitted q (bytes.take CNT), if q.length = SZ_512 then .perror (-enospc)
        else .wrote (admitted q (bytes.take CNT)).length)
    | some .kbuf => (q, if q = [] then .abort else .wrote q.length)
  | .ioctl, [_, _, word] =>
    if word.text ≠ ascii ['r', 'd'] then (q, .usage)
    else (q.drop (CNT - 1), if q = [] then .perror (-eagain)
      else .text (shown (q.take (CNT - 1))))
  | .ioctl, [_, _, word, path] =>
    if word.text ≠ ascii ['w', 'r'] then (q, .usage)
    else
      match paths path.text with
      | none => (q, .noFile)
      | some (.file bytes) =>
        let (bytes, ready) := message run.memory bytes
        (q ++ admitted q bytes, .sent ready
          (if ready ≠ 0 ∧ q.length = SZ_512 then none else some (admitted q bytes).length))
      | some .kbuf =>
        (q, if q = [] then .perror (-eagain) else .sent q.length (some q.length))
  | .cat, [_, path] =>
    match paths path.text with
    | none => (q, .abort)
    | some (.file bytes) => (q, .copied bytes true)
    | some .kbuf => ([], .copied q false)
  | _, _ => (q, .usage)

def pipeSession (paths : Paths) : List Byte → List Run → List Byte × List Ending
  | q, [] => (q, [])
  | q, run :: runs =>
    let (q, exit) := pipeMain paths q run
    let (q, exits) := pipeSession paths q runs
    (q, exit :: exits)

/-- The bytes of the pipe that a run has shown. -/
def showed (paths : Paths) (run : Run) (exit : Ending) : List Byte :=
  match run.program, run.argv, exit with
  | .cat, [_, path], .copied out _ =>
    match paths path.text with
    | some .kbuf => out
    | _ => []
  | _, _, .read _ text => text
  | _, _, .text text => text
  | _, _, _ => []

/-- The bytes that a run has put into the pipe, by the number that it tells. -/
def entered (paths : Paths) (run : Run) (exit : Ending) : List Byte :=
  match run.program, run.argv, exit with
  | .write, [_, _, path], .wrote retw =>
    match paths path.text with
    | some (.file bytes) => bytes.take retw.toNat
    | _ => []
  | .ioctl, [_, _, _, path], .sent _ (some written) =>
    match paths path.text with
    | some (.file bytes) => (message run.memory bytes).1.take written
    | _ => []
  | _, _, _ => []

theorem shown_buffer (b : FixedBuffer Byte CNT) {out : List Byte} (h : out.length < CNT) :
    ∃ buf, b.write? 0 out = some buf ∧ printed buf out.length = some (shown out) := by
  have hout : 0 + out.length ≤ CNT := by omega
  have hroom : 0 + (out ++ [0]).length ≤ CNT := by
    rw [List.length_append, List.length_singleton]
    omega
  have hwrite := b.write?_eq_some hout
  refine ⟨_, hwrite, ?_⟩
  have hnul := b.write?_write? hwrite [0]
  rw [Nat.zero_add, b.write?_eq_some hroom] at hnul
  have hcells : (b.splice 0 (out ++ [0]) hroom).cells =
      out ++ [0] ++ b.cells.drop (0 + (out ++ [0]).length) := rfl
  rw [printed, hnul, Option.bind_eq_bind, Option.bind_some, hcells, cString, if_pos (by simp),
    CStr.shown_terminated]

theorem strcmp_word {text : List Byte} (h : 0 ∉ text) (word : CStr) :
    ∃ r, CStr.strcmp word.memory (text ++ [0]) = some r ∧ (r = 0 ↔ word.text = text) := by
  have hends : 0 ∈ text ++ [0] := List.mem_append_right _ (List.mem_singleton_self 0)
  obtain ⟨r, hr, hiff⟩ := CStr.strcmp_eq word.ends hends
  rw [shown_concat, shown_of_no_nul h] at hiff
  exact ⟨r, hr, hiff⟩

variable {s : Kbuf}

theorem read_pipe (hb : s.Bounded) {cnt : Nat} (hcnt : cnt ≠ 0) :
    ∃ o, Ioctl.kbufRead s cnt .success = some o ∧ o.dev.Bounded ∧
      o.out = s.contents.take cnt ∧ o.dev.contents = s.contents.drop cnt ∧
      o.ret = if s.contents = [] then -eagain else (min cnt s.contents.length : Nat) := by
  obtain ⟨o, ho, hb', hstep, -⟩ := Chardrv.fops_refines hb (.read cnt) .success
  have hfailed : ((Call.read cnt).op s .success).failed = false := by
    simp [Call.op, CopyFate.residue, CopyFate.success]
  have hop : (Call.read cnt).op s .success = ⟨.read cnt, false⟩ := by
    rw [← hfailed]
    rfl
  have hzero : (Call.read cnt).cnt ≠ 0 := hcnt
  rw [hop, fifoStep, if_neg hzero] at hstep
  refine ⟨o, ho, hb', ?_⟩
  by_cases hnil : s.contents = []
  · rw [hnil] at hstep ⊢
    obtain ⟨hc, hresp⟩ := Prod.mk.inj hstep
    obtain ⟨hret, hout⟩ := Resp.mk.inj hresp
    exact ⟨hout.symm.trans List.take_nil.symm, hc.symm.trans List.drop_nil.symm, hret.symm⟩
  · have hsome : available s.contents (.read cnt) = true := by simpa [available] using hnil
    rw [hsome, if_neg (by decide), if_neg Bool.false_ne_true] at hstep
    obtain ⟨hc, hresp⟩ := Prod.mk.inj hstep
    obtain ⟨hret, hout⟩ := Resp.mk.inj hresp
    exact ⟨hout.symm, hc.symm, by rw [if_neg hnil, ← hret]⟩

theorem read_count {o : Outcome} {q : List Byte} {cnt : Nat} (hout : o.out = q.take cnt)
    (hret : o.ret = (min cnt q.length : Nat)) : o.ret.toNat = o.out.length := by
  rw [hret, hout, List.length_take]
  rfl

theorem write_pipe (hb : s.Bounded) (buf : List Byte) :
    ∃ o, Ioctl.kbufWrite s buf .success = some o ∧ o.dev.Bounded ∧ o.out = [] ∧
      o.dev.contents = s.contents ++ admitted s.contents buf ∧
      o.ret = if buf ≠ [] ∧ s.contents.length = SZ_512 then -enospc
        else (admitted s.contents buf).length := by
  obtain ⟨o, ho, hb', hstep, -⟩ := Chardrv.fops_refines hb (.write buf) .success
  have hfailed : ((Call.write buf).op s .success).failed = false := by
    simp [Call.op, CopyFate.residue, CopyFate.success]
  have hop : (Call.write buf).op s .success = ⟨.write buf, false⟩ := by
    rw [← hfailed]
    rfl
  rw [hop, fifoStep] at hstep
  refine ⟨o, ho, hb', ?_⟩
  by_cases hnil : buf = []
  · subst hnil
    obtain ⟨hc, hresp⟩ := Prod.mk.inj hstep
    obtain ⟨hret, hout⟩ := Resp.mk.inj hresp
    refine ⟨hout.symm, ?_, ?_⟩
    · simpa [BoundedFifo.admitted] using hc.symm
    · simpa [BoundedFifo.admitted] using hret.symm
  have hzero : (Call.write buf).cnt ≠ 0 := mt List.length_eq_zero_iff.mp hnil
  rw [if_neg hzero] at hstep
  by_cases hfull : s.contents.length = SZ_512
  · have hnone : available s.contents (.write buf) = false := by simp [available, hfull]
    rw [if_pos hnone] at hstep
    obtain ⟨hc, hresp⟩ := Prod.mk.inj hstep
    obtain ⟨hret, hout⟩ := Resp.mk.inj hresp
    refine ⟨hout.symm, ?_, ?_⟩
    · simpa [BoundedFifo.admitted, hfull] using hc.symm
    · rw [if_pos ⟨hnil, hfull⟩]
      exact hret.symm
  · have hsome : available s.contents (.write buf) = true := by simpa [available] using hfull
    rw [hsome, if_neg (by decide), if_neg Bool.false_ne_true] at hstep
    obtain ⟨hc, hresp⟩ := Prod.mk.inj hstep
    obtain ⟨hret, hout⟩ := Resp.mk.inj hresp
    refine ⟨hout.symm, hc.symm, ?_⟩
    rw [if_neg (fun h => hfull h.2), BoundedFifo.admitted_length]
    exact hret.symm

theorem contents_le (hb : s.Bounded) : s.contents.length ≤ SZ_512 :=
  (Kbuf.contents_length hb).trans_le hb

/-- A pipe takes the whole of what has been in it. -/
theorem admitted_nil {q : List Byte} (h : q.length ≤ SZ_512) : admitted [] q = q :=
  List.take_of_length_le h

theorem readMain_pipe (hb : s.Bounded) (m : Memory) (prog dev : CStr) :
    ∃ s', readMain s m [prog, dev] = some (s', if s.contents = [] then .perror (-eagain)
        else .read (min (CNT - 1) s.contents.length : Nat) (shown (s.contents.take (CNT - 1)))) ∧
      s'.Bounded ∧ s'.contents = s.contents.drop (CNT - 1) := by
  have hcnt : CNT - 1 ≠ 0 := by decide
  obtain ⟨o, ho, hb', hout, hc, hret⟩ := read_pipe hb hcnt
  refine ⟨o.dev, ?_, hb', hc⟩
  by_cases hnil : s.contents = []
  · rw [if_pos hnil] at hret ⊢
    simp [readMain, ho, hret, eagain]
  · rw [if_neg hnil] at hret ⊢
    have hnonneg : ¬ o.ret < 0 := by omega
    have hlen := read_count hout hret
    have hlt : o.out.length < CNT := by
      rw [hout, List.length_take]
      exact Nat.lt_of_le_of_lt (Nat.min_le_left _ _) (by decide)
    obtain ⟨buf, hwrite, htext⟩ := shown_buffer m.buf hlt
    simp only [readMain, ho, Option.bind_eq_bind, Option.bind_some, if_neg hnonneg, hwrite, hlen,
      htext, Option.pure_def]
    rw [hret, hout]

theorem Node.read_file (bytes : List Byte) (s : Kbuf) (cnt : Nat) :
    (Node.file bytes).read s cnt =
      some (((bytes.take cnt).length : Int), bytes.take cnt, Node.file (bytes.drop cnt), s) := rfl

/-- The first read of a file of at most 512 bytes, or of the pipe, takes everything. -/
theorem Node.read_kbuf (hb : s.Bounded) :
    ∃ s', Node.read .kbuf s CNT = some (if s.contents = [] then -eagain else s.contents.length,
        s.contents, .kbuf, s') ∧ s'.Bounded ∧ s'.contents = [] := by
  have hcnt : CNT ≠ 0 := by decide
  have hle : s.contents.length ≤ CNT := contents_le hb
  obtain ⟨o, ho, hb', hout, hc, hret⟩ := read_pipe hb hcnt
  rw [List.take_of_length_le hle] at hout
  rw [List.drop_of_length_le hle] at hc
  rw [Nat.min_eq_right hle] at hret
  exact ⟨o.dev, by rw [Node.read, ho, Option.map_some, hout, hret], hb', hc⟩

theorem writeMain_pipe (hb : s.Bounded) {paths : Paths} {src : Node} (prog dev path : CStr)
    (m : Memory) (hpath : paths path.text = some src) :
    ∃ s', writeMain paths s [prog, dev, path] =
        some (s', (pipeMain paths s.contents ⟨.write, [prog, dev, path], m⟩).2) ∧ s'.Bounded ∧
      s'.contents = (pipeMain paths s.contents ⟨.write, [prog, dev, path], m⟩).1 := by
  cases src with
  | file bytes =>
    simp only [writeMain, hpath, pipeMain, Node.read_file, Option.bind_eq_bind, Option.bind_some]
    by_cases hnil : bytes = []
    · subst hnil
      exact ⟨s, rfl, hb, rfl⟩
    · have hne : bytes.take CNT ≠ [] := by simp [hnil, CNT]
      have hpos : ¬ ((bytes.take CNT).length : Int) ≤ 0 := by
        have := List.length_pos_iff.mpr hne
        omega
      have hall : (bytes.take CNT).take ((bytes.take CNT).length : Int).toNat = bytes.take CNT :=
        List.take_length
      obtain ⟨o, ho, hb', -, hc, hret⟩ := write_pipe hb (bytes.take CNT)
      refine ⟨o.dev, ?_, hb', by rw [hc, if_neg hnil]⟩
      rw [if_neg hpos, hall, ho, Option.bind_some, if_neg hnil, hret]
      by_cases hfull : s.contents.length = SZ_512
      · simp [hfull, hne, enospc]
      · have hnonneg : ¬ ((admitted s.contents (bytes.take CNT)).length : Int) < 0 := by omega
        simp only [hfull, and_false, if_false, if_neg hnonneg, Option.pure_def]
  | kbuf =>
    obtain ⟨s₁, hread, hb₁, hc₁⟩ := Node.read_kbuf hb
    simp only [writeMain, hpath, pipeMain, hread, Option.bind_eq_bind, Option.bind_some]
    by_cases hnil : s.contents = []
    · rw [if_pos hnil, if_pos hnil]
      exact ⟨s₁, rfl, hb₁, hc₁.trans hnil.symm⟩
    · have hpos : ¬ (s.contents.length : Int) ≤ 0 := by
        have := List.length_pos_iff.mpr hnil
        omega
      have hall : s.contents.take (s.contents.length : Int).toNat = s.contents := List.take_length
      obtain ⟨o, ho, hb', -, hc, hret⟩ := write_pipe hb₁ s.contents
      have hback : admitted s₁.contents s.contents = s.contents := by
        rw [hc₁, admitted_nil (contents_le hb)]
      have hroom : s₁.contents.length ≠ SZ_512 := by
        rw [hc₁]
        decide
      rw [hback, if_neg (fun h => hroom h.2)] at hret
      have hnonneg : ¬ (s.contents.length : Int) < 0 := by omega
      refine ⟨o.dev, ?_, hb', by rw [hc, hback, hc₁]; rfl⟩
      simp only [if_neg hnil, if_neg hpos, hall, ho, Option.bind_some, hret, if_neg hnonneg,
        Option.pure_def]

theorem ioctl_user (s : Kbuf) {m : Memory} {cmd : Nat} {call : Call}
    (h : m.user.call m.user.arg cmd m.len = some call) :
    Ioctl.kbufUnlockedIoctl s cmd m.user =
      (Chardrv.fops s call .success).map (Ioctl.putRet m.user m.user.arg) := by
  have hleft : m.user.argLeft = 0 := rfl
  have hsize : m.user.size m.user.arg.len = some m.len := if_pos rfl
  simp only [Ioctl.kbufUnlockedIoctl_eq, if_pos hleft, hsize, h]
  rfl

theorem putRet_user (m : Memory) (o : Outcome) :
    Ioctl.putRet m.user m.user.arg o = if o.ret < 0 then ⟨o.ret, o.dev, none, none, true⟩
      else ⟨0, o.dev, some (m.bufAt, o.out), some (m.lenAt, o.ret), true⟩ := by
  have hwritable : m.user.writable m.user.arg.len = true := beq_self_eq_true _
  rw [Ioctl.putRet, hwritable]
  rfl

theorem after_stored (m : Memory) (dev : Kbuf) (out : List Byte) (n : Int) :
    m.after ⟨0, dev, some (m.bufAt, out), some (m.lenAt, n), true⟩ =
      (m.buf.write? 0 out).map fun buf => { m with buf, len := n.toNat } := by
  simp only [Memory.after, Nat.sub_self]
  cases m.buf.write? 0 out <;> rfl

/-- The driver takes no byte from beyond the buffer, whatever length it is given. -/
theorem admitted_buffer (q : List Byte) (m : Memory) :
    admitted q (m.user.buffer m.bufAt m.len) = admitted q (m.buf.cells.take m.len) := by
  have hsize := m.buf.size
  have hcnt : CNT = SZ_512 := rfl
  rw [admitted, BoundedFifo.admitted, BoundedFifo.admitted]
  apply List.ext_getElem
  · simp only [Ioctl.User.buffer, List.length_take, List.length_map, List.length_range]
    omega
  · intro i h1 h2
    have hi : i < m.buf.cells.length := by
      rw [List.length_take, List.length_take] at h2
      omega
    simp [Ioctl.User.buffer, Memory.user, List.getD_eq_getElem?_getD, List.getElem?_eq_getElem hi]

theorem load_sends (m : Memory) {bytes : List Byte} (h : bytes.length ≤ CNT) :
    ∃ m', m.load bytes.length bytes = some m' ∧
      (bytes = [] → m' = m) ∧
      (bytes ≠ [] → m'.buf.cells.take m'.len = bytes ∧ m'.len = bytes.length) := by
  have hroom : 0 + bytes.length ≤ CNT := by omega
  refine ⟨_, congrArg _ (m.buf.write?_eq_some hroom), ?_, ?_⟩
  · rintro rfl
    have hsame := m.buf.write?_eq_some hroom
    rw [m.buf.write?_nil (Nat.zero_le _)] at hsame
    simp [← Option.some.inj hsame]
  · intro hne
    have hpos : (0 : Int) < bytes.length := by
      have := List.length_pos_iff.mpr hne
      omega
    have hfront := m.buf.front_splice_append hroom
    rw [Nat.zero_add] at hfront
    simp only [if_pos hpos, Int.toNat_natCast]
    exact ⟨hfront, trivial⟩

theorem ioctlSend_pipe (hb : s.Bounded) (m : Memory) :
    ∃ s', ioctlSend s m = some (s', .sent m.len
        (if m.len ≠ 0 ∧ s.contents.length = SZ_512 then none
          else some (admitted s.contents (m.buf.cells.take m.len)).length)) ∧ s'.Bounded ∧
      s'.contents = s.contents ++ admitted s.contents (m.buf.cells.take m.len) := by
  have hcall : m.user.call m.user.arg Ioctl.USR_WR_BUF m.len =
      some (.write (m.user.buffer m.bufAt m.len)) := by
    have hne : Ioctl.USR_WR_BUF ≠ Ioctl.USR_RD_BUF := by decide
    rw [Ioctl.User.call, if_neg hne, if_pos rfl]
    rfl
  obtain ⟨o, ho, hb', hout, hc, hret⟩ := write_pipe hb (m.user.buffer m.bufAt m.len)
  have hnil : m.user.buffer m.bufAt m.len ≠ [] ↔ m.len ≠ 0 := by
    simp [Ioctl.User.buffer]
  have hiff := and_congr_left' (c := s.contents.length = SZ_512) hnil
  rw [admitted_buffer] at hc hret
  have hioctl := ioctl_user s hcall
  rw [Chardrv.fops, ← Ioctl.kbufWrite, ho, Option.map_some, putRet_user] at hioctl
  refine ⟨o.dev, ?_, hb', hc⟩
  rw [ioctlSend, hioctl, Option.bind_eq_bind, Option.bind_some]
  by_cases hfull : m.len ≠ 0 ∧ s.contents.length = SZ_512
  · rw [if_pos (hiff.mpr hfull)] at hret
    have hneg : o.ret < 0 := by
      rw [hret]
      decide
    rw [if_pos hneg, if_pos hneg, if_pos hfull]
    rfl
  · rw [if_neg (mt hiff.mp hfull)] at hret
    have hnonneg : ¬ o.ret < 0 := by omega
    rw [if_neg hnonneg, if_neg (Int.lt_irrefl 0), if_neg hfull, after_stored, hout,
      m.buf.write?_nil (Nat.zero_le _), hret]
    rfl

theorem ioctl_rd (hb : s.Bounded) (m : Memory) (hlen : m.len = CNT - 1) :
    ∃ r, Ioctl.kbufUnlockedIoctl s Ioctl.USR_RD_BUF m.user = some r ∧ r.dev.Bounded ∧
      r.dev.contents = s.contents.drop (CNT - 1) ∧
      (s.contents = [] ∧ r.ret = -eagain ∨ s.contents ≠ [] ∧ ¬ r.ret < 0 ∧
        ∃ m', m.after r = some m' ∧
          printed m'.buf m'.len = some (shown (s.contents.take (CNT - 1)))) := by
  have hcall : m.user.call m.user.arg Ioctl.USR_RD_BUF m.len = some (.read (CNT - 1)) := by
    rw [Ioctl.User.call, if_pos rfl, hlen]
  have hcnt : CNT - 1 ≠ 0 := by decide
  obtain ⟨o, ho, hb', hout, hc, hret⟩ := read_pipe hb hcnt
  have hioctl := ioctl_user s hcall
  rw [Chardrv.fops, ← Ioctl.kbufRead, ho, Option.map_some, putRet_user] at hioctl
  refine ⟨_, hioctl, ?_⟩
  by_cases hnil : s.contents = []
  · rw [if_pos hnil] at hret
    have hneg : o.ret < 0 := by
      rw [hret]
      decide
    rw [if_pos hneg]
    exact ⟨hb', hc, Or.inl ⟨hnil, hret⟩⟩
  · rw [if_neg hnil] at hret
    have hnonneg : ¬ o.ret < 0 := by omega
    have hcount := read_count hout hret
    have hlt : o.out.length < CNT := by
      rw [hout, List.length_take]
      exact Nat.lt_of_le_of_lt (Nat.min_le_left _ _) (by decide)
    obtain ⟨buf, hwrite, htext⟩ := shown_buffer m.buf hlt
    rw [if_neg hnonneg]
    refine ⟨hb', hc, Or.inr ⟨hnil, Int.lt_irrefl 0, { m with buf, len := o.ret.toNat }, ?_, ?_⟩⟩
    · rw [after_stored, hwrite, Option.map_some]
    · rw [hcount, htext, hout]

/-- A run does to the device what it does to the pipe. -/
def Passes (paths : Paths) (s : Kbuf) (run : Run) : Prop :=
  ∃ s', runMain paths s run = some (s', (pipeMain paths s.contents run).2) ∧ s'.Bounded ∧
    s'.contents = (pipeMain paths s.contents run).1

theorem ioctlMain_rd (hb : s.Bounded) (paths : Paths) (prog dev word : CStr) (m : Memory) :
    Passes paths s ⟨.ioctl, [prog, dev, word], m⟩ := by
  have hrd : 0 ∉ ascii ['r', 'd'] := by decide
  obtain ⟨differs, hcmp, hiff⟩ := strcmp_word hrd word
  simp only [Passes, runMain, ioctlMain, pipeMain, hcmp, Option.bind_eq_bind, Option.bind_some]
  by_cases hword : word.text = ascii ['r', 'd']
  case neg =>
    rw [if_pos (mt hiff.mp hword), if_pos hword]
    exact ⟨s, rfl, hb, rfl⟩
  rw [if_neg (not_not.mpr (hiff.mpr hword)), if_neg (not_not.mpr hword)]
  obtain ⟨r, hr, hb', hc, hend⟩ := ioctl_rd hb { m with len := CNT - 1 } rfl
  refine ⟨r.dev, ?_, hb', hc⟩
  rw [hr, Option.bind_some]
  rcases hend with ⟨hnil, hret⟩ | ⟨hnil, hnonneg, m', hafter, htext⟩
  · have hneg : r.ret < 0 := by
      rw [hret]
      decide
    rw [if_pos hneg, if_pos hnil, hret]
    rfl
  · rw [if_neg hnonneg, if_neg hnil, hafter, Option.bind_some, htext]
    rfl

theorem ioctlMain_wr (hb : s.Bounded) (paths : Paths) (prog dev word path : CStr) (m : Memory) :
    Passes paths s ⟨.ioctl, [prog, dev, word, path], m⟩ := by
  have hwr : 0 ∉ ascii ['w', 'r'] := by decide
  obtain ⟨differs, hcmp, hiff⟩ := strcmp_word hwr word
  simp only [Passes, runMain, ioctlMain, pipeMain, hcmp, Option.bind_eq_bind, Option.bind_some]
  by_cases hword : word.text = ascii ['w', 'r']
  case neg =>
    rw [if_pos (mt hiff.mp hword), if_pos hword]
    exact ⟨s, rfl, hb, rfl⟩
  rw [if_neg (not_not.mpr (hiff.mpr hword)), if_neg (not_not.mpr hword)]
  cases paths path.text with
  | none => exact ⟨s, rfl, hb, rfl⟩
  | some src =>
  cases src with
  | file bytes =>
    have hle : (bytes.take CNT).length ≤ CNT := by
      rw [List.length_take]
      exact Nat.min_le_left _ _
    have hnonneg : ¬ ((bytes.take CNT).length : Int) < 0 := by omega
    obtain ⟨m', hload, hempty, hfilled⟩ := load_sends m hle
    have hmessage : message m bytes = (m'.buf.cells.take m'.len, m'.len) := by
      by_cases hnil : bytes = []
      · rw [message, if_pos hnil, hempty (by rw [hnil]; rfl)]
      · have hne : bytes.take CNT ≠ [] := by simp [hnil, CNT]
        obtain ⟨hcells, hlen⟩ := hfilled hne
        rw [message, if_neg hnil, hcells, hlen]
    simp only [Node.read_file, Option.bind_some, if_neg hnonneg, hload, hmessage]
    exact ioctlSend_pipe hb m'
  | kbuf =>
    obtain ⟨s₁, hread, hb₁, hc₁⟩ := Node.read_kbuf hb
    simp only [hread, Option.bind_some]
    by_cases hnil : s.contents = []
    · have hneg : (-eagain : Int) < 0 := by decide
      rw [if_pos hnil, if_pos hneg, if_pos hnil]
      exact ⟨s₁, rfl, hb₁, hc₁.trans hnil.symm⟩
    · have hnonneg : ¬ (s.contents.length : Int) < 0 := by omega
      obtain ⟨m', hload, -, hfilled⟩ := load_sends m (contents_le hb)
      obtain ⟨hcells, hlen⟩ := hfilled hnil
      obtain ⟨s', hsend, hb', hc⟩ := ioctlSend_pipe hb₁ m'
      have hroom : ¬ (m'.len ≠ 0 ∧ s₁.contents.length = SZ_512) := by
        rw [hc₁]
        exact fun h => absurd h.2 (by decide)
      rw [if_neg hroom, hcells, hlen, hc₁, admitted_nil (contents_le hb)] at hsend
      rw [hcells, hc₁, admitted_nil (contents_le hb)] at hc
      rw [if_neg hnil, if_neg hnonneg, if_neg hnil, hload, Option.bind_some]
      exact ⟨s', hsend, hb', hc⟩

/-- The loop shows everything that is left to read, and ends with the error or the end that comes
behind it. -/
theorem catLoop_file (fuel : Nat) (bytes : List Byte) (s : Kbuf) (out : List Byte)
    (h : bytes.length < fuel) : catLoop fuel (.file bytes) s out = some (s, out ++ bytes, 0) := by
  induction fuel generalizing bytes out with
  | zero => exact absurd h (Nat.not_lt_zero _)
  | succ fuel ih =>
    simp only [catLoop, Node.read_file, Option.bind_eq_bind, Option.bind_some]
    by_cases hnil : bytes = []
    · subst hnil
      simp
    · have hpos := List.length_pos_iff.mpr hnil
      have hcnt : 0 < CAT_CNT := by decide
      have hmore : (0 : Int) < (bytes.take CAT_CNT).length := by
        rw [List.length_take]
        omega
      have hless : (bytes.drop CAT_CNT).length < fuel := by
        rw [List.length_drop]
        omega
      rw [if_pos hmore, Int.toNat_natCast, List.take_length, ih _ _ hless, List.append_assoc,
        List.take_append_drop]

theorem catLoop_kbuf (fuel : Nat) (hb : s.Bounded) (out : List Byte)
    (h : s.contents.length < fuel) :
    ∃ s', catLoop fuel .kbuf s out = some (s', out ++ s.contents, -eagain) ∧ s'.Bounded ∧
      s'.contents = [] := by
  induction fuel generalizing s out with
  | zero => exact absurd h (Nat.not_lt_zero _)
  | succ fuel ih =>
    have hcnt : CAT_CNT ≠ 0 := by decide
    obtain ⟨o, ho, hb', hout, hc, hret⟩ := read_pipe hb hcnt
    simp only [catLoop, Node.read, ho, Option.map_some, Option.bind_eq_bind, Option.bind_some]
    by_cases hnil : s.contents = []
    · rw [if_pos hnil] at hret
      have hend : ¬ 0 < o.ret := by
        rw [hret]
        decide
      refine ⟨o.dev, ?_, hb', by rw [hc, hnil, List.drop_nil]⟩
      rw [if_neg hend, hret, hnil, List.append_nil]
      rfl
    · rw [if_neg hnil] at hret
      have hpos := List.length_pos_iff.mpr hnil
      have hmore : 0 < o.ret := by omega
      have hless : o.dev.contents.length < fuel := by
        rw [hc, List.length_drop]
        omega
      obtain ⟨s', hloop, hb'', hc'⟩ := ih hb' (out ++ o.out.take o.ret.toNat) hless
      refine ⟨s', ?_, hb'', hc'⟩
      rw [if_pos hmore, hloop, read_count hout hret, List.take_length, hout, hc,
        List.append_assoc, List.take_append_drop]

theorem runMain_passes (hb : s.Bounded) (paths : Paths) (run : Run) : Passes paths s run := by
  obtain ⟨program, argv, m⟩ := run
  cases program with
  | read =>
    match argv with
    | [] | [_] | _ :: _ :: _ :: _ => exact ⟨s, rfl, hb, rfl⟩
    | [prog, dev] => exact readMain_pipe hb m prog dev
  | write =>
    match argv with
    | [] | [_] | [_, _] | _ :: _ :: _ :: _ :: _ => exact ⟨s, rfl, hb, rfl⟩
    | [prog, dev, path] =>
      cases hpath : paths path.text with
      | none =>
        refine ⟨s, ?_, hb, ?_⟩
        · simp [runMain, writeMain, pipeMain, hpath]
        · simp [pipeMain, hpath]
      | some src => exact writeMain_pipe hb prog dev path m hpath
  | ioctl =>
    match argv with
    | [] | [_] | [_, _] | _ :: _ :: _ :: _ :: _ :: _ => exact ⟨s, rfl, hb, rfl⟩
    | [prog, dev, word] => exact ioctlMain_rd hb paths prog dev word m
    | [prog, dev, word, path] => exact ioctlMain_wr hb paths prog dev word path m
  | cat =>
    match argv with
    | [] | [_] | _ :: _ :: _ :: _ => exact ⟨s, rfl, hb, rfl⟩
    | [prog, path] =>
      simp only [Passes, runMain, catMain, pipeMain]
      cases paths path.text with
      | none => exact ⟨s, rfl, hb, rfl⟩
      | some src =>
      cases src with
      | file bytes =>
        have hloop := catLoop_file ((Node.file bytes).size s + 1) bytes s [] (Nat.lt_succ_self _)
        refine ⟨s, ?_, hb, rfl⟩
        simp only [hloop, Option.bind_eq_bind, Option.bind_some]
        rfl
      | kbuf =>
        have hfuel : s.contents.length < Node.kbuf.size s + 1 :=
          Nat.lt_succ_of_le (Nat.le_of_eq (Kbuf.contents_length hb))
        obtain ⟨s', hloop, hb', hc⟩ := catLoop_kbuf _ hb [] hfuel
        refine ⟨s', ?_, hb', hc⟩
        simp only [hloop, Option.bind_eq_bind, Option.bind_some]
        rfl

theorem session_pipe (hb : s.Bounded) (paths : Paths) (runs : List Run) :
    ∃ s', session paths s runs = some (s', (pipeSession paths s.contents runs).2) ∧ s'.Bounded ∧
      s'.contents = (pipeSession paths s.contents runs).1 := by
  induction runs generalizing s with
  | nil => exact ⟨s, rfl, hb, rfl⟩
  | cons run runs ih =>
    obtain ⟨s₁, hmain, hb₁, hc₁⟩ := runMain_passes hb paths run
    obtain ⟨s₂, hrest, hb₂, hc₂⟩ := ih hb₁
    rw [hc₁] at hrest hc₂
    refine ⟨s₂, ?_, hb₂, hc₂⟩
    simp only [session, hmain, hrest, Option.bind_eq_bind, Option.bind_some, Option.pure_def,
      pipeSession]

theorem admitted_initial (q bytes : List Byte) : admitted q bytes <+: bytes :=
  List.take_prefix _ bytes

theorem admitted_full {q : List Byte} (h : q.length = SZ_512) (bytes : List Byte) :
    admitted q bytes = [] := by
  rw [admitted, BoundedFifo.admitted, h]
  rfl

/-- In one run, what is entered comes behind what is shown. -/
theorem pipeMain_account {q : List Byte} (hnul : 0 ∉ q) (paths : Paths)
    (run : Run) :
    showed paths run (pipeMain paths q run).2 ++ (pipeMain paths q run).1 =
      q ++ entered paths run (pipeMain paths q run).2 := by
  obtain ⟨program, argv, m⟩ := run
  have hshown (n : Nat) : shown (q.take n) = q.take n :=
    shown_of_no_nul fun h => hnul (List.mem_of_mem_take h)
  cases program with
  | read =>
    match argv with
    | [] | [_] | _ :: _ :: _ :: _ => exact (List.append_nil q).symm
    | [prog, dev] =>
      by_cases hnil : q = []
      · simp [pipeMain, hnil, showed, entered]
      · simp [pipeMain, hnil, showed, entered, hshown]
  | write =>
    match argv with
    | [] | [_] | [_, _] | _ :: _ :: _ :: _ :: _ => exact (List.append_nil q).symm
    | [prog, dev, path] =>
      cases hpath : paths path.text with
      | none => simp [pipeMain, hpath, showed, entered]
      | some src =>
      cases src with
      | kbuf => by_cases hnil : q = [] <;> simp [pipeMain, hpath, showed, entered, hnil]
      | file bytes =>
        by_cases hnil : bytes = []
        · simp [pipeMain, hpath, showed, entered, hnil]
        · by_cases hfull : q.length = SZ_512
          · simp [pipeMain, hpath, showed, entered, hnil, hfull, admitted_full]
          · have hprefix : admitted q (bytes.take CNT) <+: bytes :=
              (admitted_initial q _).trans (List.take_prefix CNT bytes)
            have htake := List.prefix_iff_eq_take.mp hprefix
            simpa [pipeMain, hpath, showed, entered, hnil, hfull] using htake
  | ioctl =>
    match argv with
    | [] | [_] | [_, _] | _ :: _ :: _ :: _ :: _ :: _ => exact (List.append_nil q).symm
    | [prog, dev, word] =>
      by_cases hword : word.text = ascii ['r', 'd']
      · by_cases hnil : q = []
        · simp [pipeMain, hword, hnil, showed, entered]
        · simp [pipeMain, hword, hnil, showed, entered, hshown]
      · simp [pipeMain, hword, showed, entered]
    | [prog, dev, word, path] =>
      by_cases hword : word.text = ascii ['w', 'r']
      case neg => simp [pipeMain, hword, showed, entered]
      cases hpath : paths path.text with
      | none => simp [pipeMain, hword, hpath, showed, entered]
      | some src =>
      cases src with
      | kbuf => by_cases hnil : q = [] <;> simp [pipeMain, hword, hpath, showed, entered, hnil]
      | file bytes =>
        by_cases hfull : (message m bytes).2 ≠ 0 ∧ q.length = SZ_512
        · simp [pipeMain, hword, hpath, showed, entered, hfull, admitted_full]
        · have htake := List.prefix_iff_eq_take.mp (admitted_initial q (message m bytes).1)
          simpa [pipeMain, hword, hpath, showed, entered, hfull] using htake
  | cat =>
    match argv with
    | [] | [_] | _ :: _ :: _ :: _ => exact (List.append_nil q).symm
    | [prog, path] =>
      cases hpath : paths path.text with
      | none => simp [pipeMain, hpath, showed, entered]
      | some src => cases src <;> simp [pipeMain, hpath, showed, entered]

theorem pipeSession_account {q : List Byte} (hnul : 0 ∉ q) (paths : Paths) (runs : List Run)
    (htext : 0 ∉ (List.zipWith (entered paths) runs (pipeSession paths q runs).2).flatten) :
    (List.zipWith (showed paths) runs (pipeSession paths q runs).2).flatten ++
        (pipeSession paths q runs).1 =
      q ++ (List.zipWith (entered paths) runs (pipeSession paths q runs).2).flatten := by
  induction runs generalizing q with
  | nil => exact (List.append_nil q).symm
  | cons run runs ih =>
    simp only [pipeSession, List.zipWith_cons_cons, List.flatten_cons, List.mem_append,
      not_or] at htext ⊢
    obtain ⟨hfirst, hlater⟩ := htext
    have hmain := pipeMain_account hnul paths run
    have hnul' : 0 ∉ (pipeMain paths q run).1 := by
      intro hmem
      have hall := List.mem_append_right (showed paths run (pipeMain paths q run).2) hmem
      rw [hmain] at hall
      exact (List.mem_append.mp hall).elim hnul hfirst
    rw [List.append_assoc, ih hnul' hlater, ← List.append_assoc, hmain, List.append_assoc]

/-- Any session of the programs on a device that has been loaded: no access goes wrong and `cat`
ends, every run ends as the pipe of 512 places says, and the bytes that have been shown, followed
by those that are still in the device, are those that were entered, in their order, unless a NUL
is among them. -/
theorem bytes_pass_in_order (paths : Paths) (runs : List Run) :
    ∃ s exits, session paths Kbuf.fresh runs = some (s, exits) ∧ s.contents.length ≤ SZ_512 ∧
      pipeSession paths [] runs = (s.contents, exits) ∧
      (0 ∉ (List.zipWith (entered paths) runs exits).flatten →
        (List.zipWith (showed paths) runs exits).flatten ++ s.contents =
          (List.zipWith (entered paths) runs exits).flatten) := by
  have hempty : Kbuf.fresh.contents = [] := rfl
  obtain ⟨s, hrun, hb, hc⟩ := session_pipe Kbuf.fresh_bounded paths runs
  rw [hempty] at hrun hc
  refine ⟨s, _, hrun, contents_le hb, Prod.ext hc.symm rfl, ?_⟩
  intro htext
  have haccount := pipeSession_account List.not_mem_nil paths runs htext
  rw [← hc, List.nil_append] at haccount
  exact haccount

end KernelDrivers.Kbufdrv.Programs
