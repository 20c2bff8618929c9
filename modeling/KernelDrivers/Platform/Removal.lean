import KernelDrivers.Framework.Removal

namespace KernelDrivers.Platform

open Framework Removable

/-- What the platform drivers request, register and give back. -/
inductive Res where
  | gpio
  | pwm
  | client
  | misc
  deriving DecidableEq

namespace Buzzer

/-- buzzer/buzzer.c. -/
def setPwmHz : List Res := [.pwm, .gpio, .pwm]

def stopBuzzer : List Res := [.pwm, .gpio]

/-- What `buzzer_ioctl` uses; nothing when it refuses the frequency or does not know the request. -/
def buzzerIoctl : List (List Res) := [setPwmHz, stopBuzzer, []]

def buzzerProbe : List (Setup Res) :=
  [.acquire .gpio [], .use .gpio, .acquire .pwm [.release .gpio],
    .acquire .misc [.release .pwm, .release .gpio]]

def buzzerRemove : List (Teardown Res) :=
  stopBuzzer.map .use ++ [.release .pwm, .release .gpio, .release .misc]

def buzzerdrv : Removable Res where
  owner := true
  node := .misc
  probe := buzzerProbe
  calls := buzzerIoctl
  remove := buzzerRemove

end Buzzer

namespace Beep

/-- kernel_code_v1/beep/beep.c. Its `fops` has no owner, and its mutex lets one user in at a
time. -/
def beepSetHz : List Res := [.pwm, .pwm, .gpio]

def beepMute : List Res := [.pwm, .gpio]

def beepUnlockedIoctl : List (List Res) := [beepSetHz, beepMute, []]

/-- With `error1` and `error0` written out. -/
def beepProbe : List (Setup Res) :=
  [.acquire .gpio [], .use .gpio, .acquire .pwm [.release .gpio],
    .acquire .misc [.release .pwm, .release .gpio]]

def beepRemove : List (Teardown Res) :=
  beepMute.map .use ++ [.release .pwm, .release .gpio, .release .misc]

def beepdrv : Removable Res where
  owner := false
  node := .misc
  probe := beepProbe
  calls := beepUnlockedIoctl
  remove := beepRemove

end Beep

namespace Resistance

/-- adc/resistant.c. Nothing is used for a count other than the size of an int. -/
def resisRead : List (List Res) := [[.client], []]

def resistanceProbe : List (Setup Res) := [.acquire .client [], .acquire .misc [.release .client]]

def resistanceRemove : List (Teardown Res) := [.release .client, .release .misc]

def resistancedrv : Removable Res where
  owner := true
  node := .misc
  probe := resistanceProbe
  calls := resisRead
  remove := resistanceRemove

end Resistance

namespace Reslocator

/-- kernel_code_v1/reslocator/reslocator.c, whose `fops` has no owner. -/
def resRead : List (List Res) := [[.client], []]

def resProbe : List (Setup Res) := [.acquire .client [], .acquire .misc [.release .client]]

def resRemove : List (Teardown Res) := [.release .client, .release .misc]

def resdrv : Removable Res where
  owner := false
  node := .misc
  probe := resProbe
  calls := resRead
  remove := resRemove

end Reslocator

inductive Driver where
  | buzzer
  | beep
  | resistance
  | reslocator

namespace Driver

def removable : Driver → Removable Res
  | buzzer => Buzzer.buzzerdrv
  | beep => Beep.beepdrv
  | resistance => Resistance.resistancedrv
  | reslocator => Reslocator.resdrv

/-- What a bound driver holds. -/
def all : Driver → List Res
  | buzzer | beep => [.gpio, .pwm, .misc]
  | resistance | reslocator => [.client, .misc]

theorem orderly (drv : Driver) : Orderly drv.removable drv.all := by
  cases drv with
  | buzzer => exact ⟨by decide, by decide, by decide, by decide⟩
  | beep => exact ⟨by decide, by decide, by decide, by decide⟩
  | resistance => exact ⟨by decide, by decide, by decide, by decide⟩
  | reslocator => exact ⟨by decide, by decide, by decide, by decide⟩

/-- A user's call is on its way when the driver is removed, and goes on when everything has been
given back. -/
def overtaken (cause : Act Unit Res) (body : List Res) : List (Act Unit Res) :=
  [.insmod, .offer] ++ List.replicate 5 (.work true) ++ [.openFile (), .call () body, cause] ++
    List.replicate 5 (.work true) ++ [.run ()]

theorem overtaken_harms (drv : Driver) : ∃ body,
    ((machine drv.removable true).run (overtaken .unbind body)).harmed = true ∧
      (drv.removable.owner = false → ∀ unbinds,
        ((machine drv.removable unbinds).run (overtaken .rmmod body)).harmed = true) := by
  cases drv with
  | buzzer => exact ⟨Buzzer.stopBuzzer, by decide, by decide⟩
  | beep => exact ⟨Beep.beepMute, by decide, by decide⟩
  | resistance => exact ⟨[.client], by decide, by decide⟩
  | reslocator => exact ⟨[.client], by decide, by decide⟩

/-- The module and the device of a platform driver may come and go in any order, its acquisitions
may fail and its users may be anywhere in their calls: the driver itself uses and gives back only
what it holds, and holds everything while it is bound and nothing while it is not. Its users never
use what has been given back if and only if an open file holds the module and the driver is not
unbound while the module stays. -/
theorem removal_safe_iff (drv : Driver) (unbinds : Bool) :
    (∀ (P : Type) [Fintype P] [DecidableEq P] (acts : List (Act P Res)),
      ((machine drv.removable unbinds).run acts).stray = false ∧
      (((machine drv.removable unbinds).run acts).work = .idle →
        ((machine drv.removable unbinds).run acts).held =
          if ((machine drv.removable unbinds).run acts).bound then drv.all else []) ∧
      (((machine drv.removable unbinds).run acts).loaded = false →
        ((machine drv.removable unbinds).run acts).held = [])) ∧
    ((∀ (P : Type) [Fintype P] [DecidableEq P] (acts : List (Act P Res)),
        ((machine drv.removable unbinds).run acts).harmed = false) ↔
      drv.removable.owner = true ∧ unbinds = false) := by
  constructor
  · intro P _ _ acts
    have hsound : Sound drv.removable unbinds drv.all _ := run_sound drv.orderly acts
    exact ⟨hsound.stray, hsound.settled⟩
  · obtain ⟨body, hunbind, hrmmod⟩ := drv.overtaken_harms
    constructor
    · intro h
      cases howner : drv.removable.owner with
      | false =>
        have hharmed := hrmmod howner unbinds
        rw [h Unit] at hharmed
        cases hharmed
      | true =>
        cases unbinds with
        | false => exact ⟨rfl, rfl⟩
        | true =>
          rw [h Unit] at hunbind
          cases hunbind
    · rintro ⟨howner, rfl⟩ P _ _ acts
      exact (run_calm drv.orderly howner acts).harmed

end Driver

end KernelDrivers.Platform
