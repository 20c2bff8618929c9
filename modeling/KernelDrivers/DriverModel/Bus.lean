import KernelDrivers.Framework.Binding
import KernelDrivers.Framework.CString

namespace KernelDrivers.DriverModel

open Framework

/-- `!strncmp(drv->name, pdev->name, strlen(drv->name))` -/
def nameMatch (dev drv : CStr) : Option Int :=
  (CStr.strlen drv.memory).bind fun len =>
    (CStr.strncmp drv.memory dev.memory len).map fun ret => if ret = 0 then 1 else 0

/-- The match function of driver_model/demo2. -/
def mybusMatch (dev drv : CStr) : Option Int := nameMatch dev drv

/-- The match function of kernel_code_v1/drv_model/base. -/
def mymatch (dev drv : CStr) : Option Int := nameMatch dev drv

inductive BusType where
  | mybus
  | mibus

def BusType.match : BusType → CStr → CStr → Option Int
  | mybus => mybusMatch
  | mibus => mymatch

/-- A name is tried by the driver core; nonzero is a match. -/
def accepts {D R : Type*} (bus : BusType) (devName : D → CStr) (drvName : R → CStr) (dev : D)
    (drv : R) : Bool :=
  match bus.match (devName dev) (drvName drv) with
  | some ret => ret != 0
  | none => false

/-- No two of the drivers have names of which one is a prefix of the other. -/
def Separated {D R : Type*} (drvName : R → CStr) (order : List (Registration D R)) : Prop :=
  ∀ r r', .driver r ∈ order → .driver r' ∈ order → r ≠ r' →
    ¬ (drvName r).text <+: (drvName r').text

theorem nameMatch_iff (dev drv : CStr) :
    ∃ ret, nameMatch dev drv = some ret ∧ (ret ≠ 0 ↔ drv.text <+: dev.text) := by
  obtain ⟨r, hr, hiff⟩ := CStr.strncmp_prefix drv.ends dev.ends
  have hret : nameMatch dev drv = some (if r = 0 then 1 else 0) := by
    rw [nameMatch, CStr.strlen_eq drv.ends, Option.bind_some, hr, Option.map_some]
  refine ⟨_, hret, ?_⟩
  rw [CStr.text, CStr.text, ← hiff]
  by_cases h0 : r = 0
  · simp [h0]
  · simp [h0]

theorem match_iff (bus : BusType) (dev drv : CStr) :
    ∃ ret, bus.match dev drv = some ret ∧ (ret ≠ 0 ↔ drv.text <+: dev.text) := by
  cases bus with
  | mybus => exact nameMatch_iff dev drv
  | mibus => exact nameMatch_iff dev drv

section Names

variable {D R : Type*} (bus : BusType) (devName : D → CStr) {drvName : R → CStr}

theorem accepts_iff (d : D) (r : R) :
    accepts bus devName drvName d r ↔ (drvName r).text <+: (devName d).text := by
  obtain ⟨ret, hret, hiff⟩ := match_iff bus (devName d) (drvName r)
  rw [accepts, hret, ← hiff]
  exact bne_iff_ne

/-- Two prefixes of one name are prefixes of each other, so separated drivers share no device. -/
theorem Separated.exclusive {order : List (Registration D R)} (h : Separated drvName order) :
    Bus.Exclusive (accepts bus devName drvName) order := by
  intro d r r' hr hr' ha ha'
  by_contra hne
  rcases List.prefix_or_prefix_of_prefix ((accepts_iff bus devName d r).mp ha)
      ((accepts_iff bus devName d r').mp ha') with hpre | hpre
  · exact h r r' hr hr' hne hpre
  · exact h r' r hr' hr (Ne.symm hne) hpre

end Names

/-- The drivers' names decide every match, and any order of the same registrations ends in the
binding of each device to the one driver whose name is a prefix of its own. -/
theorem binding_independent_of_load_order (bus : BusType) :
    (∀ dev drv : CStr, ∃ ret, bus.match dev drv = some ret ∧
      (ret ≠ 0 ↔ drv.text <+: dev.text)) ∧
    ∀ {D R : Type*} [DecidableEq D] (devName : D → CStr) (drvName : R → CStr)
      (order : List (Registration D R)), Separated drvName order →
      (∀ d r, ((Bus.machine (accepts bus devName drvName)).run order).bound d = some r ↔
        .device d ∈ order ∧ .driver r ∈ order ∧ (drvName r).text <+: (devName d).text) ∧
      ∀ order', order.Perm order' →
        ((Bus.machine (accepts bus devName drvName)).run order).bound =
          ((Bus.machine (accepts bus devName drvName)).run order').bound := by
  refine ⟨match_iff bus, ?_⟩
  intro D R _ devName drvName order hsep
  have hone := hsep.exclusive bus devName
  constructor
  · intro d r
    obtain ⟨hdevices, hdrivers, hbound⟩ := Bus.run_settled hone
    rw [hbound, hdevices, hdrivers, accepts_iff]
  · intro order' hperm
    exact Bus.run_bound_perm hone hperm

/-- Two devices of one driver, with another driver registered between them. -/
theorem binding_independent_of_load_order_two :
    let devName : Bool → CStr := fun second => ⟨[109, if second then 50 else 49, 0], by simp⟩
    let drvName : Bool → CStr := fun other => ⟨[if other then 110 else 109, 0], by simp⟩
    let bus := Bus.machine (accepts .mybus devName drvName)
    let order := [.device false, .driver true, .driver false, .device true]
    (bus.run order).bound = (bus.run order.reverse).bound ∧
      (bus.run order).bound true = some false := by
  intro devName drvName bus order
  have hsep : Separated drvName order := by
    have hnames : ∀ r r' : Bool, r ≠ r' → ¬ (drvName r).text <+: (drvName r').text := by decide
    exact fun r r' _ _ => hnames r r'
  have h := (binding_independent_of_load_order .mybus).2 devName drvName order hsep
  have hbound := (h.1 true false).mpr ⟨by simp [order], by simp [order], by decide⟩
  exact ⟨h.2 _ (List.reverse_perm order).symm, hbound⟩

/-- Of two drivers whose names are prefixes of each other, the one that comes first gets the
device. -/
example :
    let devName : Unit → CStr := fun _ => ⟨[109, 98, 49, 0], by simp⟩
    let drvName : Bool → CStr := fun long => ⟨if long then [109, 98, 0] else [109, 0], by
      cases long <;> simp⟩
    let bus := Bus.machine (accepts .mibus devName drvName)
    (bus.run [.driver false, .driver true, .device ()]).bound () = some false ∧
      (bus.run [.driver true, .driver false, .device ()]).bound () = some true := by
  decide

end KernelDrivers.DriverModel
