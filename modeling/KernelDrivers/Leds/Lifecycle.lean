import KernelDrivers.Framework.ResourceLedger
import KernelDrivers.Leds.Commands

namespace KernelDrivers.Leds.Lifecycle

open Framework Kernel

inductive Res where
  | mapping
  | procEntry
  | misc
  | region
  | cls
  | cdev
  | device
  deriving DecidableEq

/-- How every acquisition of a load would end. A call that reports failure by a null pointer loses
the error. -/
abbrev Fates := Res → Option Err

/-- A module's port, what it holds, and all that it has acquired. -/
structure Module where
  board : Board
  ledger : Ledger Res
  acquired : List Res

namespace Module

def start (con dat : BitVec 32) : Module := ⟨⟨false, con, dat, 0⟩, Ledger.empty, []⟩

def acquire (m : Module) (r : Res) : Module :=
  { m with ledger := m.ledger.acquire r, acquired := m.acquired ++ [r] }

def release (m : Module) (r : Res) : Module := { m with ledger := m.ledger.release r }

/-- `ioremap` -/
def ioremap (m : Module) : Module :=
  { m.acquire .mapping with board := { m.board with mapped := true } }

/-- `iounmap` -/
def iounmap (m : Module) : Module :=
  { m.release .mapping with board := { m.board with mapped := false } }

/-- Accesses to the port. -/
def onPort (m : Module) (access : Board → Option Board) : Option Module :=
  (access m.board).map fun board => { m with board }

end Module

/-- The system calls on the device and its proc entry. -/
inductive Op where
  | read (cnt : Nat) (fate : CopyFate)
  | write (w : Write)
  | procRead

/-- A driver: all that a load acquires, and its functions. -/
structure Driver where
  resources : List Res
  demoInit : Fates → Module → Option (Int × Module)
  perform : Board → Op → Option Board
  demoExit : Module → Option Module

namespace Miscled

def demoInit (f : Fates) (m : Module) : Option (Int × Module) :=
  if (f .mapping).isSome then some (-enomem, m)
  else do
    let m ← m.ioremap.onPort Leds.Miscled.setupPort
    -- the failure of `create_proc_read_entry` is not returned
    let m := if (f .procEntry).isSome then m.iounmap else m.acquire .procEntry
    let m := if (f .misc).isSome then m else m.acquire .misc
    return (status (f .misc), m)

def perform (b : Board) : Op → Option Board
  | .read cnt fate => (Leds.Miscled.demoRead b cnt fate).map fun _ => b
  | .write w => (Leds.Miscled.demoWrite b w).map Prod.snd
  | .procRead => (Leds.Miscled.ledProcRead b).map fun _ => b

/-- The accesses of `demo_exit`. -/
def ledsOff (b : Board) : Option Board := do
  let tmp ← b.ioread8 .gpm4dat
  b.iowrite8 .gpm4dat ((tmp.setWidth 32 ||| 0xf#32).setWidth 8)

def demoExit (m : Module) : Option Module := do
  let m ← m.onPort ledsOff
  return (m.iounmap.release .procEntry).release .misc

end Miscled

def miscled : Driver :=
  ⟨[.mapping, .procEntry, .misc], Miscled.demoInit, Miscled.perform, Miscled.demoExit⟩

namespace KernelCodeV1

def error0 (m : Module) : Module := m.release .region

def error1 (m : Module) : Module := error0 (m.release .cls)

def error2 (m : Module) : Module := error1 (m.release .cdev)

def error3 (m : Module) : Module := error2 (m.release .device)

def error4 (m : Module) : Module := error3 m.iounmap

/-- The part of `demo_init` after `device_create`; `ret` is that of `cdev_add`. -/
def mapPort (f : Fates) (ret : Int) (m : Module) : Option (Int × Module) :=
  if (f .mapping).isSome then some (ret, error3 m)
  else do
    let m ← m.ioremap.onPort Leds.KernelCodeV1.setupPort
    if (f .procEntry).isSome then return (ret, error4 m)
    return (0, m.acquire .procEntry)

def demoInit (f : Fates) (m : Module) : Option (Int × Module) :=
  let ret := status (f .region)
  if ret < 0 then some (ret, m)
  else
    let m := m.acquire .region
    match f .cls with
    | some e => some (e.code, error0 m)
    | none =>
      let m := m.acquire .cls
      let ret := status (f .cdev)
      if ret < 0 then some (ret, error1 m)
      else
        let m := m.acquire .cdev
        match f .device with
        | some e => some (e.code, error2 m)
        | none => mapPort f ret (m.acquire .device)

/-- The driver has no `read`. -/
def perform (b : Board) : Op → Option Board
  | .read _ _ => some b
  | .write w => (Leds.KernelCodeV1.demoWrite b w).map Prod.snd
  | .procRead => (Leds.KernelCodeV1.procRead b).map fun _ => b

/-- The loop of `demo_exit`. -/
def ledsOff (b : Board) : Option Board :=
  (List.range 4).foldlM
    (fun b i => (Leds.KernelCodeV1.ledCtr b (Int32.ofNat (i + 1)) 0).map Prod.snd) b

def demoExit (m : Module) : Option Module := do
  let m ← m.onPort ledsOff
  let m := ((m.iounmap.release .device).release .cls).release .region
  return (m.release .cdev).release .procEntry

end KernelCodeV1

def leds : Driver :=
  ⟨[.region, .cls, .cdev, .device, .mapping, .procEntry], KernelCodeV1.demoInit,
    KernelCodeV1.perform, KernelCodeV1.demoExit⟩

namespace Driver

variable (D : Driver)

/-- The outcome of a load and the module after it, and the module at the end of the run: after
the system calls and the unload if the load has returned 0. There is none when a register is
accessed through no mapping. -/
def run (f : Fates) (ops : List Op) (con dat : BitVec 32) : Option (Int × Module × Module) := do
  let (ret, loaded) ← D.demoInit f (.start con dat)
  if ret ≠ 0 then return (ret, loaded, loaded)
  let m ← loaded.onPort fun b => ops.foldlM D.perform b
  return (ret, loaded, ← D.demoExit m)

/-- A load that returns 0 has everything, any other returns a negative value and has nothing, and
at the end each resource acquired has been released once. -/
structure Clean (f : Fates) (ret : Int) (loaded final : Module) : Prop where
  success : ret = 0 → (∀ r ∈ D.resources, f r = none) ∧ loaded.ledger.Holds D.resources
  failure : ret ≠ 0 → ret < 0 ∧ loaded.ledger.Holds []
  stray : final.ledger.stray = []
  once : ∀ r ∈ final.acquired, final.ledger.released.count r = 1

/-- The run accesses no register without a mapping, and it is clean. -/
def Safe (f : Fates) (ops : List Op) (con dat : BitVec 32) : Prop :=
  ∃ ret loaded final, D.run f ops con dat = some (ret, loaded, final) ∧
    D.Clean f ret loaded final

end Driver

/-- Everything in a list has been acquired and is held. -/
structure Module.Loaded (m : Module) (rs : List Res) : Prop where
  mapped : m.board.mapped = true
  ledger : m.ledger = Ledger.empty.acquireAll rs
  acquired : m.acquired = rs

/-- Everything in a list has been acquired and released again. -/
structure Module.Unwound (m : Module) (rs : List Res) : Prop where
  nodup : rs.Nodup
  ledger : ∃ ts, ts.Perm rs ∧ m.ledger = (Ledger.empty.acquireAll rs).releaseAll ts
  acquired : m.acquired = rs

theorem holds_acquireAll (rs : List Res) :
    (Ledger.empty.acquireAll rs).Holds rs ∧ (Ledger.empty.acquireAll rs).stray = [] ∧
      (Ledger.empty.acquireAll rs).released = [] :=
  Ledger.holds_empty.acquireAll rs

theorem Module.Unwound.clean {m : Module} {rs : List Res} (h : m.Unwound rs) :
    m.ledger.Holds [] ∧ m.ledger.stray = [] ∧ ∀ r ∈ m.acquired, m.ledger.released.count r = 1 := by
  obtain ⟨ts, hperm, hledger⟩ := h.ledger
  obtain ⟨hholds, hstray, hreleased⟩ := holds_acquireAll rs
  obtain ⟨hnone, hstray', hreleased'⟩ := hholds.releasePerm h.nodup hperm
  rw [hledger]
  refine ⟨hnone, hstray'.trans hstray, ?_⟩
  intro r hr
  rw [h.acquired] at hr
  rw [hreleased', hreleased, List.nil_append, hperm.count_eq]
  exact List.count_eq_one_of_mem h.nodup hr

/-- Work that succeeds while the port is mapped, and leaves it mapped. -/
def Total {α : Type*} (work : Board → α → Option Board) : Prop :=
  ∀ b a, b.mapped = true → ∃ b', work b a = some b' ∧ b'.mapped = true

theorem Total.foldlM {α : Type*} {work : Board → α → Option Board} (h : Total work) (as : List α)
    {b : Board} (hm : b.mapped = true) : ∃ b', as.foldlM work b = some b' ∧ b'.mapped = true := by
  induction as generalizing b with
  | nil => exact ⟨b, rfl, hm⟩
  | cons a as ih =>
    obtain ⟨b', hwork, hm'⟩ := h b a hm
    obtain ⟨b'', hrest, hm''⟩ := ih hm'
    refine ⟨b'', ?_, hm''⟩
    rw [List.foldlM_cons, hwork]
    exact hrest

/-- A driver that serves a loaded module, and gives all of it back at its end. -/
structure Driver.Spec (D : Driver) : Prop where
  nodup : D.resources.Nodup
  serves : Total D.perform
  exits : ∃ order, order.Perm D.resources ∧ ∀ m : Module, m.board.mapped = true →
    ∃ m', D.demoExit m = some m' ∧ m'.acquired = m.acquired ∧
      m'.ledger = m.ledger.releaseAll order

namespace Driver

variable {D : Driver} {f : Fates} {ops : List Op} {con dat : BitVec 32} {ret : Int} {m : Module}

theorem safe_of_loaded (S : D.Spec) (hinit : D.demoInit f (.start con dat) = some (0, m))
    (hall : ∀ r ∈ D.resources, f r = none) (hm : m.Loaded D.resources) : D.Safe f ops con dat := by
  obtain ⟨order, hperm, hexit⟩ := S.exits
  obtain ⟨b, hops, hmapped⟩ := S.serves.foldlM ops hm.mapped
  obtain ⟨final, hfinal, hacquired, hledger⟩ := hexit { m with board := b } hmapped
  have hunwound : final.Unwound D.resources := by
    constructor
    · exact S.nodup
    · exact ⟨order, hperm, by rw [hledger, hm.ledger]⟩
    · exact hacquired.trans hm.acquired
  obtain ⟨-, hstray, honce⟩ := hunwound.clean
  refine ⟨0, m, final, ?_, ?_⟩
  · simp [run, hinit, Module.onPort, hops, hfinal]
  · have hholds : m.ledger.Holds D.resources := by
      rw [hm.ledger]
      exact (holds_acquireAll _).1
    exact ⟨fun _ => ⟨hall, hholds⟩, fun h => absurd rfl h, hstray, honce⟩

theorem safe_of_failed (hinit : D.demoInit f (.start con dat) = some (ret, m)) (hneg : ret < 0)
    {rs : List Res} (hm : m.Unwound rs) : D.Safe f ops con dat := by
  obtain ⟨hnone, hstray, honce⟩ := hm.clean
  have hne : ret ≠ 0 := by omega
  refine ⟨ret, m, m, ?_, ?_⟩
  · simp [run, hinit, hne]
  · exact ⟨fun h => absurd h hne, fun _ => ⟨hneg, hnone⟩, hstray, honce⟩

/-- What a run says about its load is what the load has done. -/
theorem clean_load (hinit : D.demoInit f (.start con dat) = some (ret, m))
    (h : D.Safe f ops con dat) :
    (ret = 0 → ∀ r ∈ D.resources, f r = none) ∧ (ret ≠ 0 → m.ledger.Holds []) := by
  obtain ⟨ret', loaded, final, hrun, hclean⟩ := h
  have hload : ret' = ret ∧ loaded = m := by
    by_cases hret : ret = 0
    · simp only [run, hinit, hret, Option.bind_eq_bind, Option.bind_some, ne_eq, not_true_eq_false,
        if_false, Option.bind_eq_some_iff] at hrun
      obtain ⟨m', -, final', -, heq⟩ := hrun
      cases heq
      exact ⟨hret.symm, rfl⟩
    · simp only [run, hinit, Option.bind_eq_bind, Option.bind_some, ne_eq, hret, not_false_eq_true,
        if_true] at hrun
      cases hrun
      exact ⟨rfl, rfl⟩
  obtain ⟨rfl, rfl⟩ := hload
  exact ⟨fun h => (hclean.success h).1, fun h => (hclean.failure h).2⟩

end Driver

theorem onPort_eq {m : Module} {access : Board → Option Board} {b : Board}
    (h : access m.board = some b) : m.onPort access = some { m with board := b } := by
  rw [Module.onPort, h, Option.map_some]

theorem ioremap_setup (m : Module) :
    ∃ b : Board, b.mapped = true ∧
      m.ioremap.onPort Leds.Miscled.setupPort = some { m.ioremap with board := b } ∧
      m.ioremap.onPort Leds.KernelCodeV1.setupPort = some { m.ioremap with board := b } := by
  obtain ⟨hmisc, hleds⟩ := setupPort_eq m.board.con m.board.dat m.board.writes
  refine ⟨_, ?_, onPort_eq hmisc, onPort_eq hleds⟩
  rfl

theorem serves_total {size : Int} {write : Board → Write → Option (Int × Board)}
    {command? : Write → Option Command} (h : Serves size write command?) :
    Total fun b w => (write b w).map Prod.snd := by
  intro b w hm
  rcases h b w hm with ⟨c, -, hw⟩ | ⟨-, ret, -, hw⟩
  · exact ⟨b.command c, congrArg (Option.map Prod.snd) hw, hm⟩
  · exact ⟨b, congrArg (Option.map Prod.snd) hw, hm⟩

theorem miscled_spec : miscled.Spec where
  nodup := by decide
  serves b op hm := by
    cases op with
    | read cnt fate =>
      refine ⟨b, ?_, hm⟩
      -- what is left uncopied is not negative
      have hret : ¬ ((fate.residue 4 : Nat) : Int) < 0 := by omega
      by_cases hcnt : cnt = 4
      · simp [miscled, Miscled.perform, Leds.Miscled.demoRead, Leds.Miscled.ledstat, Board.ioread8,
          Board.ioread32, hm, hcnt, hret]
      · simp [miscled, Miscled.perform, Leds.Miscled.demoRead, hcnt]
    | write w => exact serves_total Leds.Miscled.serves b w hm
    | procRead =>
      refine ⟨b, ?_, hm⟩
      simp [miscled, Miscled.perform, Leds.Miscled.ledProcRead, Board.ioread8, Board.ioread32, hm]
  exits := by
    refine ⟨[.mapping, .procEntry, .misc], List.Perm.refl _, ?_⟩
    intro m hm
    have hoff : ∃ b, m.onPort Miscled.ledsOff = some { m with board := b } := by
      simp [Module.onPort, Miscled.ledsOff, Board.ioread8, Board.iowrite8, Board.ioread32,
        Board.iowrite32, hm]
    obtain ⟨b, hb⟩ := hoff
    refine ⟨({ m with board := b }.iounmap.release .procEntry).release .misc, ?_, rfl, rfl⟩
    simp only [miscled, Miscled.demoExit, hb]
    rfl

theorem leds_spec : leds.Spec where
  nodup := by decide
  serves b op hm := by
    cases op with
    | read cnt fate => exact ⟨b, rfl, hm⟩
    | write w => exact serves_total Leds.KernelCodeV1.serves b w hm
    | procRead =>
      refine ⟨b, ?_, hm⟩
      simp [leds, KernelCodeV1.perform, Leds.KernelCodeV1.procRead, Board.ioread32, hm]
  exits := by
    refine ⟨[.mapping, .device, .cls, .region, .cdev, .procEntry], by decide, ?_⟩
    intro m hm
    have htotal : Total fun b (i : Nat) =>
        (Leds.KernelCodeV1.ledCtr b (Int32.ofNat (i + 1)) 0).map Prod.snd := by
      intro b i hb
      simp only [Leds.KernelCodeV1.ledCtr_eq hb]
      cases Command.of? (Leds.KernelCodeV1.on? 0) (Int32.ofNat (i + 1)).toInt with
      | some c => exact ⟨b.command c, rfl, hb⟩
      | none => exact ⟨b, rfl, hb⟩
    obtain ⟨b, hb, -⟩ := htotal.foldlM (List.range 4) hm
    refine ⟨((((({ m with board := b }.iounmap.release .device).release .cls).release
      .region).release .cdev).release .procEntry), ?_, rfl, rfl⟩
    simp only [leds, KernelCodeV1.demoExit, Module.onPort, KernelCodeV1.ledsOff, hb]
    rfl

theorem miscled_safe_iff (f : Fates) (ops : List Op) (con dat : BitVec 32) :
    miscled.Safe f ops con dat ↔ f .mapping ≠ none ∨ (f .procEntry = none ↔ f .misc = none) := by
  obtain ⟨b, hb, hport, -⟩ := ioremap_setup (.start con dat)
  let mapped : Module := { (Module.start con dat).ioremap with board := b }
  cases hmap : f .mapping with
  | some e =>
    have hinit : miscled.demoInit f (.start con dat) = some (-enomem, .start con dat) := by
      simp [miscled, Miscled.demoInit, hmap]
    have hunwound : (Module.start con dat).Unwound [] :=
      ⟨List.nodup_nil, ⟨[], List.Perm.refl _, rfl⟩, rfl⟩
    exact iff_of_true (Driver.safe_of_failed hinit (by decide) hunwound) (Or.inl (by simp))
  | none =>
    cases hproc : f .procEntry with
    | none =>
      cases hmisc : f .misc with
      | none =>
        have hinit : miscled.demoInit f (.start con dat) =
            some (0, (mapped.acquire .procEntry).acquire .misc) := by
          simp [miscled, Miscled.demoInit, hmap, hproc, hmisc, hport, status, mapped]
        have hloaded : ((mapped.acquire .procEntry).acquire .misc).Loaded miscled.resources :=
          ⟨hb, rfl, rfl⟩
        have hall : ∀ r ∈ miscled.resources, f r = none := by
          simp [miscled, hmap, hproc, hmisc]
        exact iff_of_true (Driver.safe_of_loaded miscled_spec hinit hall hloaded) (by simp)
      | some e =>
        have hinit : miscled.demoInit f (.start con dat) =
            some (e.code, mapped.acquire .procEntry) := by
          simp [miscled, Miscled.demoInit, hmap, hproc, hmisc, hport, status, mapped]
        apply iff_of_false _ (by simp)
        intro hsafe
        have hneg := e.neg
        have hnone := (Driver.clean_load hinit hsafe).2 (by omega)
        exact absurd ((hnone .mapping).mp rfl) List.not_mem_nil
    | some ep =>
      cases hmisc : f .misc with
      | none =>
        have hinit : miscled.demoInit f (.start con dat) =
            some (0, mapped.iounmap.acquire .misc) := by
          simp [miscled, Miscled.demoInit, hmap, hproc, hmisc, hport, status, mapped]
        apply iff_of_false _ (by simp)
        intro hsafe
        have hall := (Driver.clean_load hinit hsafe).1 rfl
        exact absurd (hall .procEntry (by decide)) (by simp [hproc])
      | some e =>
        have hinit : miscled.demoInit f (.start con dat) = some (e.code, mapped.iounmap) := by
          simp [miscled, Miscled.demoInit, hmap, hproc, hmisc, hport, status, mapped]
        have hunwound : mapped.iounmap.Unwound [.mapping] :=
          ⟨List.nodup_singleton _, ⟨[.mapping], List.Perm.refl _, rfl⟩, rfl⟩
        exact iff_of_true (Driver.safe_of_failed hinit e.neg hunwound) (by simp)

namespace KernelCodeV1

/-- How a load of kernel_code_v1/leds ends: with everything, with the error of a call and nothing,
or with a null pointer and the zero of `cdev_add`. -/
inductive Ending (f : Fates) : Option (Int × Module) → Prop where
  | loaded (m : Module) (all : ∀ r ∈ leds.resources, f r = none)
      (holds : m.Loaded leds.resources) : Ending f (some (0, m))
  | failed (ret : Int) (m : Module) (rs : List Res) (neg : ret < 0)
      (reported : ¬ (f .region = none ∧ f .cls = none ∧ f .cdev = none ∧ f .device = none))
      (unwound : m.Unwound rs) : Ending f (some (ret, m))
  | silent (m : Module) (before : f .region = none ∧ f .cls = none ∧ f .cdev = none ∧
      f .device = none) (null : f .mapping ≠ none ∨ f .procEntry ≠ none) : Ending f (some (0, m))

theorem demoInit_ending (f : Fates) (con dat : BitVec 32) :
    Ending f (demoInit f (.start con dat)) := by
  let region : Module := (Module.start con dat).acquire .region
  let cdev : Module := (region.acquire .cls).acquire .cdev
  let device : Module := cdev.acquire .device
  obtain ⟨b, hb, -, hport⟩ := ioremap_setup device
  cases hregion : f .region with
  | some e =>
    have hinit : demoInit f (.start con dat) = some (e.code, .start con dat) := by
      simp [demoInit, hregion, status, e.neg]
    rw [hinit]
    exact .failed _ _ [] e.neg (by simp [hregion]) ⟨by decide, ⟨[], by decide, rfl⟩, rfl⟩
  | none =>
    cases hcls : f .cls with
    | some e =>
      have hinit : demoInit f (.start con dat) = some (e.code, error0 region) := by
        simp [demoInit, hregion, hcls, status, region]
      rw [hinit]
      exact .failed _ _ [.region] e.neg (by simp [hcls])
        ⟨by decide, ⟨[.region], by decide, rfl⟩, rfl⟩
    | none =>
      cases hcdev : f .cdev with
      | some e =>
        have hinit : demoInit f (.start con dat) =
            some (e.code, error1 (region.acquire .cls)) := by
          simp [demoInit, hregion, hcls, hcdev, status, e.neg, region]
        rw [hinit]
        exact .failed _ _ [.region, .cls] e.neg (by simp [hcdev])
          ⟨by decide, ⟨[.cls, .region], by decide, rfl⟩, rfl⟩
      | none =>
        cases hdevice : f .device with
        | some e =>
          have hinit : demoInit f (.start con dat) = some (e.code, error2 cdev) := by
            simp [demoInit, hregion, hcls, hcdev, hdevice, status, region, cdev]
          rw [hinit]
          exact .failed _ _ [.region, .cls, .cdev] e.neg (by simp [hdevice])
            ⟨by decide, ⟨[.cdev, .cls, .region], by decide, rfl⟩, rfl⟩
        | none =>
          have hinit : demoInit f (.start con dat) = mapPort f 0 device := by
            simp [demoInit, hregion, hcls, hcdev, hdevice, status, region, cdev, device]
          rw [hinit]
          have hbefore : f .region = none ∧ f .cls = none ∧ f .cdev = none ∧ f .device = none :=
            ⟨hregion, hcls, hcdev, hdevice⟩
          cases hmap : f .mapping with
          | some e =>
            have hnull : mapPort f 0 device = some (0, error3 device) := by
              simp [mapPort, hmap]
            rw [hnull]
            exact .silent _ hbefore (Or.inl (by simp [hmap]))
          | none =>
            let mapped : Module := { device.ioremap with board := b }
            cases hproc : f .procEntry with
            | some e =>
              have hnull : mapPort f 0 device = some (0, error4 mapped) := by
                simp [mapPort, hmap, hproc, hport, mapped]
              rw [hnull]
              exact .silent _ hbefore (Or.inr (by simp [hproc]))
            | none =>
              have hdone : mapPort f 0 device = some (0, mapped.acquire .procEntry) := by
                simp [mapPort, hmap, hproc, hport, mapped]
              have hall : ∀ r ∈ leds.resources, f r = none := by
                simp [leds, hregion, hcls, hcdev, hdevice, hmap, hproc]
              rw [hdone]
              exact .loaded _ hall ⟨hb, rfl, rfl⟩

end KernelCodeV1

theorem leds_safe_iff (f : Fates) (ops : List Op) (con dat : BitVec 32) :
    leds.Safe f ops con dat ↔
      ¬ ((f .region = none ∧ f .cls = none ∧ f .cdev = none ∧ f .device = none) ∧
        (f .mapping ≠ none ∨ f .procEntry ≠ none)) := by
  have hend := KernelCodeV1.demoInit_ending f con dat
  generalize hinit : KernelCodeV1.demoInit f (.start con dat) = outcome at hend
  cases hend with
  | loaded m all holds =>
    apply iff_of_true (Driver.safe_of_loaded leds_spec hinit all holds)
    rintro ⟨-, hmap | hproc⟩
    · exact hmap (all .mapping (by decide))
    · exact hproc (all .procEntry (by decide))
  | failed ret m rs neg reported unwound =>
    exact iff_of_true (Driver.safe_of_failed hinit neg unwound) fun h => reported h.1
  | silent m before null =>
    apply iff_of_false _ (not_not.mpr ⟨before, null⟩)
    intro hsafe
    have hall := (Driver.clean_load hinit hsafe).1 rfl
    rcases null with hmap | hproc
    · exact hmap (hall .mapping (by decide))
    · exact hproc (hall .procEntry (by decide))

/-- The runs of the two drivers that are safe: miscled may not lose exactly one of its proc entry
and its misc device, and kernel_code_v1/leds no null pointer after `device_create`. -/
theorem register_lifecycle (f : Fates) (ops : List Op) (con dat : BitVec 32) :
    (miscled.Safe f ops con dat ↔
      (f .mapping ≠ none ∨ (f .procEntry = none ↔ f .misc = none))) ∧
    (leds.Safe f ops con dat ↔
      ¬ ((f .region = none ∧ f .cls = none ∧ f .cdev = none ∧ f .device = none) ∧
        (f .mapping ≠ none ∨ f .procEntry ≠ none))) :=
  ⟨miscled_safe_iff f ops con dat, leds_safe_iff f ops con dat⟩

/-- Every acquisition succeeds but the proc entry. -/
def noProcEntry : Fates
  | .procEntry => some ⟨-efault, by decide⟩
  | _ => none

/-- Without its proc entry miscled returns 0, and then a write has no result. -/
theorem lost_proc_entry : ¬ miscled.Safe noProcEntry [.write ⟨[1, 1], .success⟩] 0 0 ∧
    miscled.run noProcEntry [.write ⟨[1, 1], .success⟩] 0 0 = none ∧
    ¬ leds.Safe noProcEntry [] 0 0 := by
  refine ⟨?_, rfl, ?_⟩
  · rw [miscled_safe_iff]
    simp [noProcEntry]
  · rw [leds_safe_iff]
    simp [noProcEntry]

end KernelDrivers.Leds.Lifecycle
