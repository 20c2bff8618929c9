import KernelDrivers.DriverModel.Bus
import KernelDrivers.Framework.Hotplug

namespace KernelDrivers.DriverModel

open Framework

/-- A name as it stands in the source. -/
def named (text : List Char) : CStr :=
  ⟨ascii text ++ [0], by simp⟩

/-- The modules of driver_model/demo2 and of kernel_code_v1/drv_model/base with a device. -/
inductive DeviceModule where
  | mydev1
  | mydev2
  | mydev3
  deriving DecidableEq

/-- The modules of the two directories with a driver, mydrv1.c and drv1.c first. -/
inductive DriverModule where
  | mydrv1
  | mydrv2
  deriving DecidableEq

def deviceName : BusType → DeviceModule → CStr
  | .mybus, .mydev1 => named ['s', 'p', 'r', 'i', 'n', 'g', '1']
  | .mybus, .mydev2 => named ['s', 'p', 'r', 'i', 'n', 'g', '2']
  | .mybus, .mydev3 => named ['s', 'p', 'r', 'i', 'n', 'g', '3']
  | .mibus, .mydev1 => named ['s', 'u', 'n', '1']
  | .mibus, .mydev2 => named ['s', 'u', 'n', '2']
  | .mibus, .mydev3 => named ['s', 'u', 'n', '3']

def driverName : BusType → DriverModule → CStr
  | .mybus, .mydrv1 => named ['s', 'p', 'r', 'i', 'n', 'g']
  | .mybus, .mydrv2 => named ['c', 'u', 'p']
  | .mibus, .mydrv1 => named ['s', 'u', 'n']
  | .mibus, .mydrv2 => named ['s', 'h', 'y']

/-- The bus of a directory while modules are loaded and unloaded. -/
abbrev hotplug {D R : Type*} [DecidableEq D] [DecidableEq R] (bus : BusType) (devName : D → CStr)
    (drvName : R → CStr) : Machine (Hotplug D R) (Plug D R) :=
  Hotplug.machine (accepts bus devName drvName)

/-- No two drivers of a schedule have names of which one is a prefix of the other. -/
def Apart {D R : Type*} (drvName : R → CStr) (acts : List (Plug D R)) : Prop :=
  ∀ r r', .driverRegister r ∈ acts → .driverRegister r' ∈ acts → r ≠ r' →
    ¬ (drvName r).text <+: (drvName r').text

/-- A device that is there and a driver that is there with a prefix of its name. -/
def Wanted {D R : Type*} (devName : D → CStr) (drvName : R → CStr) (acts : List (Plug D R)) (d : D)
    (r : R) : Prop :=
  Standing (.deviceRegister d) (.deviceUnregister d) acts ∧
    Standing (.driverRegister r) (.driverUnregister r) acts ∧
    (drvName r).text <+: (devName d).text

section Names

variable {D R : Type*} (bus : BusType) {devName : D → CStr} {drvName : R → CStr}
  {acts : List (Plug D R)}

theorem Apart.exclusive (h : Apart drvName acts) :
    Hotplug.Exclusive (accepts bus devName drvName) acts := by
  intro d r r' hr hr' ha ha'
  by_contra hne
  rw [accepts_iff] at ha ha'
  rcases List.prefix_or_prefix_of_prefix ha ha' with hpre | hpre
  · exact h r r' hr hr' hne hpre
  · exact h r' r hr' hr (Ne.symm hne) hpre

variable [DecidableEq D] [DecidableEq R]

theorem hotplug_bindings_wanted {d : D} {r : R}
    (h : (d, r) ∈ ((hotplug bus devName drvName).run acts).bindings) :
    Wanted devName drvName acts d r := by
  have hsound := Hotplug.run_sound (accepts bus devName drvName) acts
  refine ⟨?_, ?_, ?_⟩
  · exact (Hotplug.run_devices acts d).mp (hsound.devices _ h)
  · exact (Hotplug.run_drivers acts r).mp (hsound.drivers _ h)
  · exact (accepts_iff bus devName d r).mp (hsound.accepted _ h)

theorem hotplug_bindings_iff (h : Apart drvName acts) (d : D) (r : R) :
    (d, r) ∈ ((hotplug bus devName drvName).run acts).bindings ↔
      Wanted devName drvName acts d r := by
  rw [Hotplug.run_bindings (h.exclusive bus), Hotplug.run_devices, Hotplug.run_drivers,
    accepts_iff, Wanted]

end Names

/-- The names of the drivers of one directory do not begin with each other. -/
theorem driverName_apart (bus : BusType) (acts : List (Plug DeviceModule DriverModule)) :
    Apart (driverName bus) acts := by
  have hnames : ∀ r r', r ≠ r' → ¬ (driverName bus r).text <+: (driverName bus r').text := by
    intro r r' hne
    cases bus <;> cases r <;> cases r' <;> first | exact absurd rfl hne | decide
  exact fun r r' _ _ => hnames r r'

/-- Only the first driver's name begins the devices' names. -/
theorem driverName_prefix_iff (bus : BusType) (d : DeviceModule) (r : DriverModule) :
    (driverName bus r).text <+: (deviceName bus d).text ↔ r = .mydrv1 := by
  cases bus <;> cases d <;> cases r <;> decide

/-- Whatever is loaded and unloaded in whatever order, only devices and drivers that are there are
bound, every probe of a device is answered by a remove before the next one, and the calls so far
tell what is bound. A device never misses a driver that is there unless another driver's name
begins its name too, so in both directories the first driver has every device that is there, and
the second one none. -/
theorem hotplug_bound {D R : Type*} [DecidableEq D] [DecidableEq R] (bus : BusType)
    (devName : D → CStr) (drvName : R → CStr) (acts : List (Plug D R)) :
    ((∀ d r, (d, r) ∈ ((hotplug bus devName drvName).run acts).bindings →
        Wanted devName drvName acts d r) ∧
      Hotplug.Paired ((hotplug bus devName drvName).run acts).calls ∧
      (∀ d r, Hotplug.owner ((hotplug bus devName drvName).run acts).calls d = some r ↔
        (d, r) ∈ ((hotplug bus devName drvName).run acts).bindings) ∧
      (Apart drvName acts → ∀ d r,
        (d, r) ∈ ((hotplug bus devName drvName).run acts).bindings ↔
          Wanted devName drvName acts d r)) ∧
    ∀ (acts : List (Plug DeviceModule DriverModule)) (d : DeviceModule) (r : DriverModule),
      (d, r) ∈ ((hotplug bus (deviceName bus) (driverName bus)).run acts).bindings ↔
        r = .mydrv1 ∧ Standing (.deviceRegister d) (.deviceUnregister d) acts ∧
          Standing (.driverRegister .mydrv1) (.driverUnregister .mydrv1) acts := by
  have hsound := Hotplug.run_sound (accepts bus devName drvName) acts
  refine ⟨⟨fun d r => hotplug_bindings_wanted bus, hsound.paired, hsound.owned,
    fun h => hotplug_bindings_iff bus h⟩, ?_⟩
  intro acts d r
  rw [hotplug_bindings_iff bus (driverName_apart bus acts), Wanted, driverName_prefix_iff]
  constructor
  · rintro ⟨hd, hr, rfl⟩
    exact ⟨rfl, hd, hr⟩
  · rintro ⟨rfl, hd, hr⟩
    exact ⟨hd, hr, rfl⟩

end KernelDrivers.DriverModel
