import KernelDrivers.Kbufdrv.Chardrv

namespace KernelDrivers.Kbufdrv.Ioctl

open Framework Kernel

/-- An address of the user's memory. -/
abbrev UserPtr := Nat

/-- `struct buf_data`. -/
structure BufData where
  buf : UserPtr
  len : UserPtr

def sizeofBufData : Nat := 8

/-- `'m'`. -/
def USRBUF_TYPE : Nat := 109

/-- `_IOWR(type, nr, int)`: the direction, the size, the type and the number. -/
def iowr (type nr : Nat) : Nat := 3 <<< 30 ||| 4 <<< 16 ||| type <<< 8 ||| nr

def USR_RD_BUF : Nat := iowr USRBUF_TYPE 0

def USR_WR_BUF : Nat := iowr USRBUF_TYPE 1

example : USR_RD_BUF = 0xc0046d00 ∧ USR_WR_BUF = 0xc0046d01 := by decide

/-- The user's side of an ioctl: the structure at `arg`, how much of it cannot be copied and
what such a copy leaves in the kernel's; the value of a `size_t` that can be read at an
address, and whether one can be written there; the bytes of the memory, and what becomes of
their copy. -/
structure User where
  arg : BufData
  argLeft : Nat
  junk : BufData
  size : UserPtr → Option Nat
  writable : UserPtr → Bool
  mem : UserPtr → Byte
  fate : CopyFate

/-- The bytes at an address. -/
def User.buffer (u : User) (buf : UserPtr) (cnt : Nat) : List Byte :=
  (List.range cnt).map fun i => u.mem (buf + i)

/-- What an ioctl does: its return value, the device it leaves, the bytes it hands to the user
and what it stores, with their addresses, and whether it has used a field of `bufdata`. -/
structure Result where
  ret : Int
  dev : Kbuf
  out : Option (UserPtr × List Byte)
  stored : Option (UserPtr × Int)
  used : Bool

/-- `kbuf_read` and `kbuf_write` are those of kbufchardrv on the one device `kbufs`. -/
def kbufRead : Kbuf → Nat → CopyFate → Option Outcome := Chardrv.kbufRead

def kbufWrite : Kbuf → List Byte → CopyFate → Option Outcome := Chardrv.kbufWrite

/-- What follows `ret = kbuf_read(..)` and `ret = kbuf_write(..)`. -/
def putRet (u : User) (bufdata : BufData) (o : Outcome) : Result :=
  if o.ret < 0 then ⟨o.ret, o.dev, none, none, true⟩
  else if u.writable bufdata.len = false then
    ⟨-efault, o.dev, some (bufdata.buf, o.out), none, true⟩
  else ⟨0, o.dev, some (bufdata.buf, o.out), some (bufdata.len, o.ret), true⟩

def kbufUnlockedIoctl (kbufs : Kbuf) (cmd : Nat) (u : User) : Option Result :=
  let ret : Int := (min u.argLeft sizeofBufData : Nat)
  if ret < 0 then some ⟨ret, kbufs, none, none, false⟩
  else
    let bufdata := if ret = 0 then u.arg else u.junk
    match u.size bufdata.len with
    | none => some ⟨-efault, kbufs, none, none, true⟩
    | some sz =>
      if cmd = USR_RD_BUF then
        (kbufRead kbufs sz u.fate).map (putRet u bufdata)
      else if cmd = USR_WR_BUF then
        (kbufWrite kbufs (u.buffer bufdata.buf sz) u.fate).map (putRet u bufdata)
      else some ⟨-einval, kbufs, none, none, true⟩

/-- The call that a command stands for, with `cnt` as read through `len`. -/
def User.call (u : User) (bufdata : BufData) (cmd cnt : Nat) : Option Call :=
  if cmd = USR_RD_BUF then some (.read cnt)
  else if cmd = USR_WR_BUF then some (.write (u.buffer bufdata.buf cnt))
  else none

/-- An ioctl is one of the two calls with its result stored through `len`, or an error that
leaves the FIFO as it was, and it uses `bufdata` only when all of it has been copied in. -/
structure Atomic (kbufs : Kbuf) (cmd : Nat) (u : User) (r : Result) : Prop where
  agrees : r.ret = 0 → ∃ cnt call o,
    u.size u.arg.len = some cnt ∧ u.call u.arg cmd cnt = some call ∧
    Chardrv.fops kbufs call u.fate = some o ∧ 0 ≤ o.ret ∧ r.dev = o.dev ∧
    r.out = some (u.arg.buf, o.out) ∧ r.stored = some (u.arg.len, o.ret)
  refused : r.ret < 0 → r.dev.validlen = kbufs.validlen ∧ r.dev.contents = kbufs.contents
  copied : r.used = true → u.argLeft = 0

/-- A call moves bytes: it asks for some, the FIFO has them or room for them, and they can be
copied. -/
def Transfers (kbufs : Kbuf) (call : Call) (fate : CopyFate) : Prop :=
  call.cnt ≠ 0 ∧ call.ready kbufs = true ∧ fate.residue (call.clip kbufs) = 0

/-- The structure is copied in, and what moves bytes can store their number. -/
def Clean (kbufs : Kbuf) (cmd : Nat) (u : User) : Prop :=
  u.argLeft = 0 ∧ ∀ cnt call, u.size u.arg.len = some cnt → u.call u.arg cmd cnt = some call →
    Transfers kbufs call u.fate → u.writable u.arg.len = true

variable {kbufs : Kbuf}

/-- A call that moves bytes changes what the FIFO holds. -/
theorem fifoEffect_ne {q : List Byte} (hq : q.length ≤ SZ_512) {call : Call} (h0 : call.cnt ≠ 0)
    (ha : available q call = true) : (fifoEffect q call).1 ≠ q := by
  intro heq
  have hlen := congrArg List.length heq
  cases call with
  | read cnt =>
    simp only [available, Call.cnt, bne_iff_ne, ne_eq] at h0 ha
    simp only [fifoEffect, List.length_drop] at hlen
    omega
  | write buf =>
    simp only [available, Call.cnt, bne_iff_ne, ne_eq] at h0 ha
    simp only [fifoEffect, List.length_append, BoundedFifo.admitted_length] at hlen
    omega

/-- What moves bytes succeeds and changes the FIFO, and what does not leaves it as it is. -/
theorem fops_ends (hb : kbufs.Bounded) (call : Call) (fate : CopyFate) :
    ∃ o, Chardrv.fops kbufs call fate = some o ∧
      ((Transfers kbufs call fate ∧ 0 ≤ o.ret ∧ o.dev.contents ≠ kbufs.contents) ∨
        (¬ Transfers kbufs call fate ∧ o.dev.validlen = kbufs.validlen ∧
          o.dev.contents = kbufs.contents)) := by
  have hlen := Kbuf.contents_length hb
  rw [Chardrv.fops_eq]
  by_cases h0 : call.cnt = 0
  · rw [if_pos h0]
    exact ⟨_, rfl, Or.inr ⟨fun h => h.1 h0, rfl, rfl⟩⟩
  rw [if_neg h0]
  by_cases hready : call.ready kbufs = false
  · rw [if_pos hready]
    have hnot : ¬ Transfers kbufs call fate := by
      intro h
      exact absurd (h.2.1.symm.trans hready) (by decide)
    exact ⟨_, rfl, Or.inr ⟨hnot, rfl, rfl⟩⟩
  rw [if_neg hready]
  rw [Bool.not_eq_false] at hready
  obtain ⟨o, ho, -, hend⟩ := transfer_cases hb call fate
  refine ⟨o, ho, ?_⟩
  have hop : (call.op kbufs fate).failed = (fate.residue (call.clip kbufs) != 0) := rfl
  rw [hop] at hend
  rcases hend with ⟨hfail, -, -, -, hv, hc⟩ | ⟨hdone, -, heff⟩
  · have hres : fate.residue (call.clip kbufs) ≠ 0 := by simpa using hfail
    exact Or.inr ⟨fun h => hres h.2.2, hv, hc⟩
  · have hres : fate.residue (call.clip kbufs) = 0 := by simpa using hdone
    have hcontents := congrArg Prod.fst heff
    have hret := congrArg (fun e => e.2.ret) heff
    have hnonneg := fifoEffect_ret_nonneg kbufs.contents call
    simp only at hcontents hret
    refine Or.inl ⟨⟨h0, hready, hres⟩, ?_, ?_⟩
    · omega
    · rw [hcontents]
      have hfits : kbufs.contents.length ≤ SZ_512 := by
        rw [hlen]
        exact hb
      rw [ready_eq hb] at hready
      exact fifoEffect_ne hfits h0 hready

theorem kbufUnlockedIoctl_eq (kbufs : Kbuf) (cmd : Nat) (u : User) :
    kbufUnlockedIoctl kbufs cmd u =
      let bufdata := if u.argLeft = 0 then u.arg else u.junk
      match u.size bufdata.len with
      | none => some ⟨-efault, kbufs, none, none, true⟩
      | some cnt =>
        match u.call bufdata cmd cnt with
        | none => some ⟨-einval, kbufs, none, none, true⟩
        | some call => (Chardrv.fops kbufs call u.fate).map (putRet u bufdata) := by
  have hneg : ¬ ((min u.argLeft sizeofBufData : Nat) : Int) < 0 := by omega
  have hall : ((min u.argLeft sizeofBufData : Nat) : Int) = 0 ↔ u.argLeft = 0 := by
    unfold sizeofBufData
    omega
  simp only [kbufUnlockedIoctl, if_neg hneg, hall]
  cases u.size (if u.argLeft = 0 then u.arg else u.junk).len with
  | none => rfl
  | some cnt =>
    by_cases hrd : cmd = USR_RD_BUF
    · simp [User.call, hrd, kbufRead, Chardrv.fops]
    · by_cases hwr : cmd = USR_WR_BUF
      · simp only [User.call, if_neg hrd, if_pos hwr]
        rfl
      · simp [User.call, hrd, hwr]

theorem putRet_used (u : User) (bufdata : BufData) (o : Outcome) :
    (putRet u bufdata o).used = true := by
  unfold putRet
  by_cases hret : o.ret < 0
  · rw [if_pos hret]
  · rw [if_neg hret]
    cases u.writable bufdata.len <;> rfl

/-- The local structure is used even when it was not copied in. -/
theorem ioctl_used (hb : kbufs.Bounded) (cmd : Nat) (u : User) :
    ∃ r, kbufUnlockedIoctl kbufs cmd u = some r ∧ r.used = true := by
  rw [kbufUnlockedIoctl_eq]
  simp only
  cases hsize : u.size (if u.argLeft = 0 then u.arg else u.junk).len with
  | none => exact ⟨_, rfl, rfl⟩
  | some cnt =>
    simp only
    cases hcall : u.call (if u.argLeft = 0 then u.arg else u.junk) cmd cnt with
    | none => exact ⟨_, rfl, rfl⟩
    | some call =>
      obtain ⟨o, ho, -⟩ := fops_ends hb call u.fate
      exact ⟨_, congrArg (Option.map _) ho, putRet_used u _ o⟩

/-- An error that leaves the FIFO as it was is in order once the structure is copied in. -/
theorem atomic_refused (cmd : Nat) {u : User} (hleft : u.argLeft = 0) {r : Result}
    (hret : r.ret < 0) (hv : r.dev.validlen = kbufs.validlen)
    (hc : r.dev.contents = kbufs.contents) : Atomic kbufs cmd u r where
  agrees h := absurd h (Int.ne_of_lt hret)
  refused _ := ⟨hv, hc⟩
  copied _ := hleft

theorem putRet_atomic_iff (hb : kbufs.Bounded) {cmd cnt : Nat} {u : User} {call : Call}
    (hleft : u.argLeft = 0) (hsize : u.size u.arg.len = some cnt)
    (hcall : u.call u.arg cmd cnt = some call) :
    ∃ o, Chardrv.fops kbufs call u.fate = some o ∧
      (Atomic kbufs cmd u (putRet u u.arg o) ↔
        (Transfers kbufs call u.fate → u.writable u.arg.len = true)) := by
  obtain ⟨o, ho, hend⟩ := fops_ends hb call u.fate
  refine ⟨o, ho, ?_⟩
  have hefault : -efault < 0 := by decide
  by_cases hret : o.ret < 0
  · -- the call has failed
    have hput : putRet u u.arg o = ⟨o.ret, o.dev, none, none, true⟩ := if_pos hret
    rcases hend with ⟨-, hnonneg, -⟩ | ⟨hnot, hv, hc⟩
    · omega
    · rw [hput]
      exact iff_of_true (atomic_refused cmd hleft hret hv hc) fun h => absurd h hnot
  by_cases hw : u.writable u.arg.len = true
  · have hput : putRet u u.arg o =
        ⟨0, o.dev, some (u.arg.buf, o.out), some (u.arg.len, o.ret), true⟩ := by
      simp [putRet, hret, hw]
    rw [hput]
    refine iff_of_true ⟨fun _ => ?_, fun h => absurd h (Int.lt_irrefl 0), fun _ => hleft⟩
      fun _ => hw
    exact ⟨cnt, call, o, hsize, hcall, ho, Int.not_lt.mp hret, rfl, rfl, rfl⟩
  · -- the number of bytes cannot be stored
    have hput : putRet u u.arg o = ⟨-efault, o.dev, some (u.arg.buf, o.out), none, true⟩ := by
      simp [putRet, hret, hw]
    rw [hput]
    rcases hend with ⟨htransfers, -, hne⟩ | ⟨hnot, hv, hc⟩
    · refine iff_of_false (fun hatomic => ?_) fun h => hw (h htransfers)
      exact hne (hatomic.refused hefault).2
    · exact iff_of_true (atomic_refused cmd hleft hefault hv hc) fun h => absurd h hnot

/-- An ioctl on any FIFO is atomic if and only if the structure is copied in and what moves
bytes can store their number. -/
theorem ioctl_atomic_iff (hb : kbufs.Bounded) (cmd : Nat) (u : User) :
    ∃ r, kbufUnlockedIoctl kbufs cmd u = some r ∧
      (Atomic kbufs cmd u r ↔ Clean kbufs cmd u) := by
  by_cases hleft : u.argLeft = 0
  · rw [kbufUnlockedIoctl_eq]
    simp only [if_pos hleft]
    have hefault : -efault < 0 := by decide
    have heinval : -einval < 0 := by decide
    cases hsize : u.size u.arg.len with
    | none =>
      refine ⟨_, rfl, iff_of_true (atomic_refused cmd hleft hefault rfl rfl) ⟨hleft, ?_⟩⟩
      intro cnt call hcnt
      rw [hsize] at hcnt
      cases hcnt
    | some cnt =>
      simp only
      cases hcall : u.call u.arg cmd cnt with
      | none =>
        refine ⟨_, rfl, iff_of_true (atomic_refused cmd hleft heinval rfl rfl) ⟨hleft, ?_⟩⟩
        intro cnt' call hcnt hcall'
        obtain rfl := Option.some.inj (hsize.symm.trans hcnt)
        rw [hcall] at hcall'
        cases hcall'
      | some call =>
        obtain ⟨o, ho, hiff⟩ := putRet_atomic_iff hb hleft hsize hcall
        refine ⟨_, congrArg (Option.map (putRet u u.arg)) ho, hiff.trans ?_⟩
        constructor
        · intro hput
          refine ⟨hleft, fun cnt' call' hcnt hcall' htransfers => ?_⟩
          obtain rfl := Option.some.inj (hsize.symm.trans hcnt)
          obtain rfl := Option.some.inj (hcall.symm.trans hcall')
          exact hput htransfers
        · intro hclean
          exact hclean.2 cnt call hsize hcall
  · obtain ⟨r, hr, hused⟩ := ioctl_used hb cmd u
    exact ⟨r, hr, iff_of_false (fun h => hleft (h.copied hused)) fun h => hleft h.1⟩

/-- A user whose `*len` is at address 8 and asks for three bytes at address 16. -/
def plainUser : User where
  arg := ⟨16, 8⟩
  argLeft := 0
  junk := ⟨0, 0⟩
  size p := if p = 8 then some 3 else none
  writable _ := true
  mem _ := 65
  fate := .success

theorem ioctl_atomic_plainUser :
    ∃ r, kbufUnlockedIoctl Kbuf.fresh USR_WR_BUF plainUser = some r ∧
      (Atomic Kbuf.fresh USR_WR_BUF plainUser r ↔ Clean Kbuf.fresh USR_WR_BUF plainUser) :=
  ioctl_atomic_iff Kbuf.fresh_bounded USR_WR_BUF plainUser

/-- The three bytes are appended, and their number cannot be stored; and the structure cannot
be copied in. -/
theorem ioctl_not_atomic :
    (¬ ∃ r, kbufUnlockedIoctl Kbuf.fresh USR_WR_BUF { plainUser with writable := fun _ => false } =
        some r ∧ Atomic Kbuf.fresh USR_WR_BUF { plainUser with writable := fun _ => false } r) ∧
    ¬ ∃ r, kbufUnlockedIoctl Kbuf.fresh USR_RD_BUF { plainUser with argLeft := 8 } = some r ∧
      Atomic Kbuf.fresh USR_RD_BUF { plainUser with argLeft := 8 } r := by
  constructor
  · intro h
    obtain ⟨r, hr, hatomic⟩ := h
    have hmoved : (kbufUnlockedIoctl Kbuf.fresh USR_WR_BUF
        { plainUser with writable := fun _ => false }).map (fun r => (r.ret, r.dev.validlen)) =
        some (-14, 3) := by decide +kernel
    rw [hr] at hmoved
    obtain ⟨hret, hv⟩ := Prod.mk.inj (Option.some.inj hmoved)
    have hsame := (hatomic.refused (by omega)).1
    rw [hv] at hsame
    exact absurd hsame (by decide)
  · intro h
    obtain ⟨r, hr, hatomic⟩ := h
    have hused : (kbufUnlockedIoctl Kbuf.fresh USR_RD_BUF
        { plainUser with argLeft := 8 }).map Result.used = some true := by decide +kernel
    rw [hr] at hused
    exact absurd (hatomic.copied (Option.some.inj hused)) (by decide)

end KernelDrivers.Kbufdrv.Ioctl
